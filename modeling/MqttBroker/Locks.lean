import MqttBroker.Basic
import MqttBroker.Lib.LockOrder
import Mathlib.Data.List.FinRange

/-!
# The mutexes of the broker

For each function that takes a mutex, calls the network, or calls such a function: the
locks and the calls in it, in the order of the source.  What decides between two paths is
left out, so that a program here has every path of the function.  `call` is `plat_send`,
`plat_recv`, `plat_connect`, `plat_accept` or a poll.
-/

namespace MqttBroker.Locks

open LockOrder LockOrder.Code

variable (cfg : Config)

/-- The mutexes, under the names of the source. -/
inductive Mutex (cfg : Config) where
  | localPublishLock
  | peerLock
  | sendMetaLock
  | sendLocks (slot : Fin cfg.peerMax)
  | p2pLock
  | topicLock
  | poolLock
  | sessionLock
  | routerLock
  | seenLock
  | seedLock
  | pendingQosLock
  | shardCacheLock
deriving DecidableEq

variable {cfg}

@[simp] def Mutex.rank : Mutex cfg → ℕ
  | localPublishLock => 0
  | peerLock => 1
  | sendMetaLock => 2
  | sendLocks _ => 3
  | p2pLock => 4
  | _ => 5

variable (cfg)

/-- Only the first four of them are ever held during a call. -/
def order : Discipline (Mutex cfg) where
  rank := Mutex.rank
  quiet := 4
  top := 5
  rank_le := fun l ↦ by cases l <;> simp

@[simp] theorem order_rank (l : Mutex cfg) : (order cfg).rank l = l.rank := rfl

abbrev Program (cfg : Config) := LockOrder.Code (Mutex cfg)

/-- Left out in a build without `CONFIG_MQTT_P2P_DYNAMIC`. -/
def whenP2p (p : Program cfg) : Program cfg := if cfg.p2pDynamic then p else skip

variable {cfg} in
/-- What the function does under the mutex takes no other one. -/
def under (l : Mutex cfg) : Program cfg := locked l skip

def slots : List (Fin cfg.peerMax) := List.finRange cfg.peerMax

/-! ## client.c -/

def clientGetSnapshots : Program cfg := under .poolLock

def clientFreeSlots : Program cfg := under .poolLock

def clientUsedSlots : Program cfg := under .poolLock

def clientAlloc : Program cfg := under .poolLock

def clientTakeover : Program cfg := under .poolLock

def clientSend : Program cfg := loop call

def clientInflightRetry : Program cfg := loop (clientSend cfg)

/-! ## session.c -/

def sessionFind : Program cfg := opt (under .sessionLock)

def sessionCreate : Program cfg := opt (under .sessionLock)

def sessionFindOrCreate : Program cfg := opt (under .sessionLock)

def sessionDelete : Program cfg := opt (under .sessionLock)

def sessionOfflinePublish : Program cfg := opt (under .sessionLock)

def sessionDrain : Program cfg := loop (clientSend cfg)

/-! ## p2p_router.c -/

def p2pRouterRemoteSubscribe : Program cfg := under .routerLock

def p2pRouterRemoteUnsubscribe : Program cfg := under .routerLock

def p2pRouterRemoveNode : Program cfg := under .routerLock

def p2pRouterStats : Program cfg := opt (under .routerLock)

def p2pRouterFindNextHops : Program cfg := opt (under .routerLock)

/-! ## topic.c, without what it tells the mesh -/

def topicGetSubSnapshotsFrom : Program cfg := under .topicLock

def topicGetRetainSnapshots : Program cfg := under .topicLock

def topicFilterSubscriberCount : Program cfg := opt (under .topicLock)

def topicGetClientSubs : Program cfg := under .topicLock

def topicDeliverRetained : Program cfg :=
  opt (block [under .topicLock, loop (clientSend cfg)])

/-! ## p2p_election.c, without what it tells the peers -/

def safeRouterStats : Program cfg := p2pRouterStats cfg

def routerTargetCount : Program cfg :=
  opt (block [clientFreeSlots cfg, safeRouterStats cfg])

def p2pElectionPeerBudget : Program cfg := opt (safeRouterStats cfg)

def localScore : Program cfg := clientFreeSlots cfg

/-- With `p2p_lock` held. -/
def recomputeRoleLocked : Program cfg := block [localScore cfg, opt (routerTargetCount cfg)]

def p2pElectionInit : Program cfg := locked .p2pLock (recomputeRoleLocked cfg)

def p2pElectionRecordPublish : Program cfg := under .p2pLock

def p2pElectionRole : Program cfg := under .p2pLock

def p2pElectionTopologySig : Program cfg := under .p2pLock

def p2pElectionSnapshot : Program cfg := under .p2pLock

def p2pElectionBuildAnnounce : Program cfg := locked .p2pLock (recomputeRoleLocked cfg)

def p2pElectionSelfId : Program cfg := under .p2pLock

/-! ## p2p_shard.c -/

def shardOwnerIdFromKey : Program cfg :=
  opt (block [p2pElectionSelfId cfg,
    opt (block [p2pElectionTopologySig cfg,
      opt (block [under .shardCacheLock,
        opt (block [p2pElectionSnapshot cfg, opt (under .shardCacheLock)])])])])

def p2pShardOwnerForTopic : Program cfg := shardOwnerIdFromKey cfg

def p2pShardOwnerForFilter : Program cfg := shardOwnerIdFromKey cfg

/-! ## p2p_peer.c -/

def sendAll : Program cfg := loop call

def sendFrame : Program cfg := opt (block [sendAll cfg, opt (sendAll cfg)])

def recvFrame : Program cfg := loop call

variable {cfg} in
def sendSlotUpdate (slot : Fin cfg.peerMax) : Program cfg :=
  locked .sendMetaLock (under (.sendLocks slot))

variable {cfg} in
def sendSlotClear (slot : Fin cfg.peerMax) : Program cfg :=
  locked .sendMetaLock (under (.sendLocks slot))

variable {cfg} in
def sendFrameToSlot (slot : Fin cfg.peerMax) : Program cfg :=
  locked (.sendLocks slot) (sendFrame cfg)

/-- It returns with the lock of the slot that it found held. -/
def findAndLockSendSlot : Option (Fin cfg.peerMax) → Program cfg
  | none => under .sendMetaLock
  | some slot => block [lock .sendMetaLock, lock (.sendLocks slot), unlock .sendMetaLock]

/-- What every caller of `find_and_lock_send_slot` does. -/
def sendFrameToNode : Program cfg :=
  find (slots cfg)
    (fun slot ↦ block [findAndLockSendSlot cfg (some slot), sendFrame cfg, unlock (.sendLocks slot)])
    (findAndLockSendSlot cfg none)

def sendPrebuiltPublishToNodeUnlocked : Program cfg := sendFrameToNode cfg

def sendSubToNodeUnlocked : Program cfg := sendFrameToNode cfg

def p2pSendPublishFromRouterPrebuilt : Program cfg :=
  block [p2pElectionRecordPublish cfg, p2pRouterFindNextHops cfg,
    loop (sendPrebuiltPublishToNodeUnlocked cfg)]

def pendingQosStore : Program cfg := opt (under .pendingQosLock)

def flushPendingQosForFilter : Program cfg :=
  block [under .pendingQosLock,
    loop (block [p2pSendPublishFromRouterPrebuilt cfg, opt (under .pendingQosLock)])]

def floodPublishToConnectedPeers : Program cfg :=
  block [under .peerLock, loop (sendPrebuiltPublishToNodeUnlocked cfg)]

def sendHello : Program cfg := block [p2pElectionBuildAnnounce cfg, sendFrame cfg]

def sendCurrentHelloToPeers : Program cfg :=
  block [p2pElectionBuildAnnounce cfg, under .peerLock, loop (sendFrameToNode cfg)]

def seenBefore : Program cfg := under .seenLock

def allocConn : Program cfg := under .peerLock

def connExists : Program cfg := under .peerLock

def addrConnExists : Program cfg := under .peerLock

def connectedPeerCount : Program cfg := under .peerLock

variable {cfg} in
def closeConn (slot : Fin cfg.peerMax) : Program cfg :=
  block [under .peerLock, sendSlotClear slot,
    opt (block [connExists cfg, opt (p2pRouterRemoveNode cfg)])]

/-- `send_slot_clear` under `peer_lock`. -/
def closeDuplicateConns : Program cfg :=
  locked .peerLock (each (slots cfg) fun slot ↦ opt (sendSlotClear slot))

def sendSubToPeersByRole : Program cfg :=
  block [under .peerLock, loop (sendSubToNodeUnlocked cfg)]

def p2pSendSubToRouters : Program cfg := sendSubToPeersByRole cfg

def sendSubToLeaves : Program cfg := sendSubToPeersByRole cfg

/-- `p2p_local_subscribe` and `p2p_local_unsubscribe` differ in the type of the frame. -/
def p2pLocalSubscribe : Program cfg :=
  opt (block [p2pElectionSelfId cfg, p2pShardOwnerForFilter cfg, opt (sendSubToNodeUnlocked cfg),
    p2pSendSubToRouters cfg])

def p2pLocalUnsubscribe : Program cfg := p2pLocalSubscribe cfg

def p2pSendPublishFromRouter : Program cfg := opt (p2pSendPublishFromRouterPrebuilt cfg)

def p2pRouterPublish : Program cfg := p2pSendPublishFromRouter cfg

def p2pPublishFromLocal : Program cfg :=
  locked .localPublishLock <| opt <| block [p2pElectionSelfId cfg,
    opt (block [p2pShardOwnerForTopic cfg,
      alt
        (block [p2pSendPublishFromRouterPrebuilt cfg, opt (floodPublishToConnectedPeers cfg)])
        (block [sendPrebuiltPublishToNodeUnlocked cfg,
          opt (block [p2pSendPublishFromRouterPrebuilt cfg,
            opt (floodPublishToConnectedPeers cfg)])]),
      opt (pendingQosStore cfg)])]

def p2pResyncLocalSubscriptions : Program cfg :=
  loop (block [topicGetSubSnapshotsFrom cfg, loop (p2pLocalSubscribe cfg)])

variable {cfg} in
def advertiseLocalSubsTo (slot : Fin cfg.peerMax) : Program cfg :=
  opt (block [p2pElectionSelfId cfg,
    loop (block [topicGetSubSnapshotsFrom cfg, loop (sendFrameToSlot slot)])])

def p2pElectionUpdateSelf : Program cfg :=
  block [locked .p2pLock (recomputeRoleLocked cfg), opt (p2pResyncLocalSubscriptions cfg)]

def p2pElectionUpdatePeer : Program cfg :=
  opt (block [locked .p2pLock (opt (recomputeRoleLocked cfg)),
    opt (p2pResyncLocalSubscriptions cfg)])

/-! ## topic.c, with what it tells the mesh -/

def topicSubscribe : Program cfg :=
  block [under .topicLock, whenP2p cfg (opt (p2pLocalSubscribe cfg))]

def topicUnsubscribe : Program cfg :=
  block [under .topicLock,
    whenP2p cfg (alt (p2pLocalUnsubscribe cfg) (opt (p2pLocalSubscribe cfg)))]

def topicUnsubscribeAll : Program cfg :=
  block [whenP2p cfg (loop (block [under .topicLock,
      alt (p2pLocalUnsubscribe cfg) (opt (p2pLocalSubscribe cfg))])),
    under .topicLock]

/-- Entered with `topic_lock` held, as `topic_publish_qos_locked` is. -/
def topicPublishQos0Locked : Program cfg := block [unlock .topicLock, loop (clientSend cfg)]

def topicPublishQosLocked : Program cfg := block [unlock .topicLock, loop (clientSend cfg)]

def topicPublishInternal (propagate : Bool) : Program cfg :=
  seq (lock .topicLock) <|
    alt (unlock .topicLock) <|
      block [alt (topicPublishQos0Locked cfg) (topicPublishQosLocked cfg),
        sessionOfflinePublish cfg,
        whenP2p cfg (if propagate then p2pPublishFromLocal cfg else skip)]

def topicPublish : Program cfg := topicPublishInternal cfg true

def topicPublishRemote : Program cfg := topicPublishInternal cfg false

/-! ## broker.c -/

def brokerSendAll : Program cfg := loop call

def recvMqttPacket : Program cfg := loop call

def meshFilterCanWithdraw : Program cfg := opt (topicFilterSubscriberCount cfg)

def meshClientClose : Program cfg :=
  whenP2p cfg (loop (block [meshFilterCanWithdraw cfg, opt (p2pLocalUnsubscribe cfg)]))

def meshClientSubscribe : Program cfg := whenP2p cfg (opt (p2pLocalSubscribe cfg))

def meshClientUnsubscribe : Program cfg :=
  whenP2p cfg (opt (block [meshFilterCanWithdraw cfg, opt (p2pLocalUnsubscribe cfg)]))

def brokerMeshIngressPublishRemote : Program cfg :=
  loop (block [opt (brokerSendAll cfg), opt (meshClientClose cfg)])

def meshPublishFromIngress : Program cfg :=
  block [whenP2p cfg (p2pPublishFromLocal cfg), brokerMeshIngressPublishRemote cfg]

def meshInflightPubrec : Program cfg := opt (brokerSendAll cfg)

def meshInflightRetry : Program cfg :=
  block [loop (brokerSendAll cfg), opt (meshClientClose cfg)]

def meshIngressRetryAll : Program cfg := loop (meshInflightRetry cfg)

def rejectServerUnavailable : Program cfg := opt (brokerSendAll cfg)

def brokerAcceptOne : Program cfg :=
  block [call, opt (block [opt (clientUsedSlots cfg),
    alt (rejectServerUnavailable cfg)
      (block [clientAlloc cfg, opt (rejectServerUnavailable cfg)])])]

def meshIngressAcceptOne : Program cfg :=
  block [call, opt (block [recvMqttPacket cfg,
    opt (block [brokerSendAll cfg, opt (rejectServerUnavailable cfg)])])]

def meshIngressHandleClient : Program cfg :=
  opt (block [recvMqttPacket cfg,
    alt (meshClientClose cfg) <|
    alt (block [opt (meshPublishFromIngress cfg), opt (brokerSendAll cfg)]) <|
    alt (block [opt (meshClientSubscribe cfg), opt (brokerSendAll cfg)]) <|
    alt (block [opt (meshClientUnsubscribe cfg), opt (brokerSendAll cfg)]) <|
    opt (meshInflightPubrec cfg)])

def brokerRun : Program cfg :=
  alt
    (loop (alt (brokerAcceptOne cfg) call))
    (loop (block [call, opt (brokerAcceptOne cfg), opt (meshIngressAcceptOne cfg),
      loop (meshIngressHandleClient cfg), meshIngressRetryAll cfg]))

/-! ## The handlers of client.c -/

def recvPacket : Program cfg := loop call

def handleConnect : Program cfg :=
  alt (opt (clientSend cfg)) <|
    block [clientTakeover cfg, alt (sessionDelete cfg) (sessionFindOrCreate cfg), clientSend cfg,
      opt (block [loop (topicSubscribe cfg), sessionDrain cfg])]

def handlePublish : Program cfg := opt (block [opt (topicPublish cfg), opt (clientSend cfg)])

def handleSubscribe : Program cfg :=
  opt (block [loop (topicSubscribe cfg), clientSend cfg, loop (topicDeliverRetained cfg)])

def handleUnsubscribe : Program cfg :=
  opt (block [loop (topicUnsubscribe cfg), opt (clientSend cfg)])

def clientFree : Program cfg :=
  block [opt (topicPublish cfg),
    opt (block [topicGetClientSubs cfg, sessionFindOrCreate cfg]),
    topicUnsubscribeAll cfg, opt (sessionDelete cfg)]

def clientThreadFn : Program cfg :=
  block [recvPacket cfg,
    opt (block [handleConnect cfg,
      loop (block [recvPacket cfg,
        alt (clientInflightRetry cfg) <| alt (handlePublish cfg) <| alt (handleSubscribe cfg) <|
          alt (handleUnsubscribe cfg) <| opt (clientSend cfg)])]),
    clientFree cfg]

/-! ## The threads of p2p_peer.c and p2p_discover.c -/

def peerHandlePublish : Program cfg :=
  opt (block [seenBefore cfg,
    opt (block [topicPublishRemote cfg, brokerMeshIngressPublishRemote cfg, p2pElectionRole cfg,
      opt (p2pRouterPublish cfg)])])

variable {cfg} in
/-- What follows a frame of a type that is not ignored. -/
def peerDispatch (slot : Fin cfg.peerMax) : Program cfg :=
  let told := opt (block [p2pElectionRole cfg,
    opt (block [p2pSendSubToRouters cfg, sendSubToLeaves cfg])])
  alt (block [p2pRouterRemoteSubscribe cfg, flushPendingQosForFilter cfg, told]) <|
    alt (block [p2pRouterRemoteUnsubscribe cfg, told]) <|
    alt (peerHandlePublish cfg) <|
    opt (block [sendSlotUpdate slot, p2pElectionUpdatePeer cfg])

variable {cfg} in
def peerLoop (slot : Fin cfg.peerMax) : Program cfg :=
  block [sendHello cfg,
    opt (block [recvFrame cfg, opt (block [connExists cfg,
      opt (block [p2pElectionSelfId cfg, opt (closeDuplicateConns cfg)]),
      sendSlotUpdate slot, p2pElectionUpdatePeer cfg, advertiseLocalSubsTo slot,
      flushPendingQosForFilter cfg, loop (block [recvFrame cfg, peerDispatch slot])])]),
    closeConn slot]

variable {cfg} in
def spawnPeer (slot : Fin cfg.peerMax) : Program cfg := opt (closeConn slot)

def connectToAddr : Program cfg :=
  block [addrConnExists cfg,
    opt (block [call, opt (block [allocConn cfg, find (slots cfg) spawnPeer skip])])]

def connectToPeer : Program cfg :=
  block [p2pElectionSelfId cfg, opt (block [connExists cfg, opt (connectToAddr cfg)])]

def p2pStaticSeedAdd : Program cfg := opt (under .seedLock)

def p2pStaticSeedClear : Program cfg := under .seedLock

def staticSeedMarkResult : Program cfg := under .seedLock

def acceptLoop : Program cfg :=
  loop (block [call, opt (block [allocConn cfg, find (slots cfg) spawnPeer skip])])

def connectLoop : Program cfg :=
  loop (block [p2pElectionSnapshot cfg, loop (p2pStaticSeedAdd cfg), p2pElectionSelfId cfg,
    p2pElectionPeerBudget cfg, opt (connectedPeerCount cfg),
    opt (block [loop (connExists cfg), loop (connectToPeer cfg)]),
    under .seedLock,
    loop (block [addrConnExists cfg,
      opt (block [opt (connectToAddr cfg), staticSeedMarkResult cfg])]),
    sendCurrentHelloToPeers cfg, call])

def p2pAnnounceLoop : Program cfg := loop (block [p2pElectionBuildAnnounce cfg, call])

def p2pListenLoop : Program cfg := loop (block [call, opt (p2pElectionUpdatePeer cfg)])

def p2pPeerSnapshot : Program cfg := opt (under .peerLock)

/-! ## http.c -/

def httpSend : Program cfg := opt (block [loop call, opt (loop call)])

def handleStatus : Program cfg :=
  block [clientGetSnapshots cfg, topicGetSubSnapshotsFrom cfg, topicGetRetainSnapshots cfg,
    httpSend cfg]

def handlePublishApi : Program cfg := alt (httpSend cfg) (block [topicPublish cfg, httpSend cfg])

def handleConnection : Program cfg :=
  block [loop call,
    opt (alt (httpSend cfg) <| alt (handleStatus cfg) <|
      block [loop call, alt (httpSend cfg) (handlePublishApi cfg)])]

def httpThread : Program cfg := loop (block [call, opt (handleConnection cfg)])

/-! ## The threads -/

/-- What the program around the broker may call at any time. -/
def application : Program cfg :=
  loop <| alt (p2pStaticSeedClear cfg) <| alt (p2pStaticSeedAdd cfg) <| alt (p2pPeerSnapshot cfg) <|
    alt (p2pElectionUpdateSelf cfg) <| alt (p2pRouterStats cfg) <| alt (sessionFind cfg) <|
    alt (sessionCreate cfg) <| alt (clientGetSnapshots cfg) (topicPublish cfg)

/-- The functions that threads run. -/
inductive Thread (cfg : Config) where
  /-- `main`, after the tables have been set up -/
  | main
  | client
  | http
  | peer (slot : Fin cfg.peerMax)
  | accept
  | connect
  | announce
  | listen
  | application

variable {cfg} in
def Thread.program : Thread cfg → Program cfg
  | main => block [whenP2p cfg (p2pElectionInit cfg), brokerRun cfg]
  | client => clientThreadFn cfg
  | http => httpThread cfg
  | peer slot => peerLoop slot
  | accept => acceptLoop cfg
  | connect => connectLoop cfg
  | announce => p2pAnnounceLoop cfg
  | listen => p2pListenLoop cfg
  | application => Locks.application cfg

/-! ## Every function keeps to the order -/

variable {cfg} {m : ℕ} {p : Program cfg}

/-- It may be called while what is held ranks below `m`. -/
abbrev Keeps (m : ℕ) (p : Program cfg) : Prop := Above (order cfg) m p

theorem keeps_under {l : Mutex cfg} (hm : m ≤ l.rank) : Keeps m (under l) :=
  above_skip.locked hm (Nat.lt_succ_self _)

theorem keeps_whenP2p (h : Keeps m p) : Keeps m (whenP2p cfg p) := by
  unfold whenP2p
  split
  · exact h
  · exact above_skip

/-! ### Under other mutexes -/

theorem keeps_recomputeRoleLocked : Keeps 5 (recomputeRoleLocked cfg) := by
  have hslots : Keeps 5 (clientFreeSlots cfg) := keeps_under le_rfl
  have hstats : Keeps 5 (safeRouterStats cfg) := Above.opt (keeps_under le_rfl)
  have htarget : Keeps 5 (routerTargetCount cfg) := Above.opt (above_block ⟨hslots, hstats⟩)
  exact above_block ⟨hslots, htarget.opt⟩

theorem keeps_calls : Keeps 4 (loop call : Program cfg) := Above.loop (above_call le_rfl)

theorem keeps_sendFrame : Keeps 4 (sendFrame cfg) :=
  Above.opt (above_block ⟨keeps_calls, keeps_calls.opt⟩)

theorem keeps_sendSlot (slot : Fin cfg.peerMax) :
    Keeps 2 (locked .sendMetaLock (under (.sendLocks slot))) := by
  have hinner : Keeps 3 (under (.sendLocks slot)) := keeps_under (by simp)
  exact hinner.locked (by simp) (by simp)

/-- `send_meta_lock` is released while the lock of the slot, taken after it, stays held. -/
theorem findAndLockSendSlot_after {H : Set (Mutex cfg)} {slot : Fin cfg.peerMax}
    (hH : ∀ l ∈ H, l.rank < 2) :
    (findAndLockSendSlot cfg (some slot)).After (order cfg) H (insert (.sendLocks slot) H) := by
  have hmeta : ∀ l ∈ insert .sendMetaLock H, l.rank < 3 :=
    insert_rank (d := order cfg) (fun l hl ↦ (hH l hl).trans (by simp)) (by simp)
  have hmem : Mutex.sendMetaLock ∈ insert (Mutex.sendLocks slot) (insert .sendMetaLock H) :=
    Set.mem_insert_of_mem _ (Set.mem_insert _ H)
  have hout : Mutex.sendMetaLock ∉ insert (Mutex.sendLocks slot) H := by
    rintro (heq | hl)
    · cases heq
    · exact absurd (hH _ hl) (by simp)
  refine ⟨_, lock_after hH, _, lock_after hmeta, _, unlock_after hmem, ?_⟩
  rw [Set.insert_comm, Set.insert_sdiff_self_of_notMem hout]
  exact rfl

theorem keeps_sendFrameToNode : Keeps 2 (sendFrameToNode cfg) := by
  apply above_find
  · intro slot H hlow
    have hheld : ∀ l ∈ insert (.sendLocks slot) H, l.rank < 4 :=
      insert_rank (d := order cfg) (fun l hl ↦ (hlow l hl).trans (by simp)) (by simp)
    have hout : Mutex.sendLocks slot ∉ H := fun hl ↦ absurd (hlow _ hl) (by simp)
    have hend := unlock_after (d := order cfg) (Set.mem_insert (Mutex.sendLocks slot) H)
    rw [Set.insert_sdiff_self_of_notMem hout] at hend
    exact ⟨_, findAndLockSendSlot_after hlow, _, keeps_sendFrame _ hheld, _, hend, rfl⟩
  · exact keeps_under le_rfl

/-! ### Under no other mutex than `local_publish_lock` -/

theorem keeps_one (h : Keeps 2 p) : Keeps 1 p := h.mono (by simp)

theorem keeps_call : Keeps 1 (call : Program cfg) := above_call (by simp [order])

theorem keeps_frames : Keeps 1 (loop (sendFrameToNode cfg)) :=
  (keeps_one keeps_sendFrameToNode).loop

theorem keeps_recomputed : Keeps 1 (locked .p2pLock (recomputeRoleLocked cfg)) :=
  keeps_recomputeRoleLocked.locked (by simp) (by simp)

theorem keeps_shardOwner : Keeps 1 (shardOwnerIdFromKey cfg) := by
  have hself : Keeps 1 (under .p2pLock : Program cfg) := keeps_under (by simp)
  have hcache : Keeps 1 (under .shardCacheLock : Program cfg) := keeps_under (by simp)
  have hranked := (above_pair hself hcache.opt).opt
  have hlooked := (above_pair hcache hranked).opt
  have howner := (above_pair hself hlooked).opt
  exact (above_pair hself howner).opt

theorem keeps_sendSubToPeersByRole : Keeps 1 (sendSubToPeersByRole cfg) :=
  above_block ⟨keeps_under le_rfl, keeps_frames⟩

theorem keeps_p2pLocalSubscribe : Keeps 1 (p2pLocalSubscribe cfg) := by
  have hdirect : Keeps 1 (sendSubToNodeUnlocked cfg) := keeps_one keeps_sendFrameToNode
  apply Above.opt
  exact above_block
    ⟨keeps_under (by simp), keeps_shardOwner, hdirect.opt, keeps_sendSubToPeersByRole⟩

theorem keeps_fromRouterPrebuilt : Keeps 1 (p2pSendPublishFromRouterPrebuilt cfg) :=
  above_block ⟨keeps_under (by simp), Above.opt (keeps_under (by simp)), keeps_frames⟩

theorem keeps_flushPendingQos : Keeps 1 (flushPendingQosForFilter cfg) := by
  have hpending : Keeps 1 (under .pendingQosLock : Program cfg) := keeps_under (by simp)
  have hsent := above_pair keeps_fromRouterPrebuilt hpending.opt
  exact above_pair hpending hsent.loop

theorem keeps_flood : Keeps 1 (floodPublishToConnectedPeers cfg) :=
  above_block ⟨keeps_under le_rfl, keeps_frames⟩

theorem keeps_resync : Keeps 1 (p2pResyncLocalSubscriptions cfg) :=
  Above.loop (above_block ⟨keeps_under (by simp), keeps_p2pLocalSubscribe.loop⟩)

theorem keeps_advertise (slot : Fin cfg.peerMax) : Keeps 1 (advertiseLocalSubsTo slot) := by
  have hframe : Keeps 1 (sendFrameToSlot slot) := keeps_sendFrame.locked (by simp) (by simp)
  have htopic : Keeps 1 (topicGetSubSnapshotsFrom cfg) := keeps_under (by simp)
  have hpage := above_pair htopic hframe.loop
  exact Above.opt (above_pair (keeps_under (by simp)) hpage.loop)

theorem keeps_updatePeer : Keeps 1 (p2pElectionUpdatePeer cfg) := by
  have hupdate : Keeps 1 (locked .p2pLock (opt (recomputeRoleLocked cfg))) :=
    keeps_recomputeRoleLocked.opt.locked (by simp) (by simp)
  exact Above.opt (above_block ⟨hupdate, keeps_resync.opt⟩)

theorem keeps_closeConn (slot : Fin cfg.peerMax) : Keeps 1 (closeConn slot) := by
  have hpeer : Keeps 1 (under .peerLock : Program cfg) := keeps_under le_rfl
  have hremove : Keeps 1 (p2pRouterRemoveNode cfg) := keeps_under (by simp)
  have hgone := (above_pair hpeer hremove.opt).opt
  exact above_block ⟨hpeer, keeps_one (keeps_sendSlot slot), hgone⟩

theorem keeps_closeDuplicateConns : Keeps 1 (closeDuplicateConns cfg) := by
  have hslots : Keeps 2 (each (slots cfg) fun slot ↦ opt (sendSlotClear slot)) :=
    above_each fun slot ↦ (keeps_sendSlot slot).opt
  exact hslots.locked le_rfl (by simp)

theorem keeps_connectToAddr : Keeps 1 (connectToAddr cfg) := by
  have hpeer : Keeps 1 (under .peerLock : Program cfg) := keeps_under le_rfl
  have hspawn : Keeps 1 (find (slots cfg) spawnPeer skip) :=
    above_find (fun slot ↦ (keeps_closeConn slot).opt) above_skip
  have halloc := (above_pair hpeer hspawn).opt
  exact above_pair hpeer (above_pair keeps_call halloc).opt

theorem keeps_topicUnsubscribe : Keeps 1 (topicUnsubscribe cfg) := by
  have htold : Keeps 1 (alt (p2pLocalUnsubscribe cfg) (opt (p2pLocalSubscribe cfg))) :=
    keeps_p2pLocalSubscribe.alt keeps_p2pLocalSubscribe.opt
  exact above_block ⟨keeps_under (by simp), keeps_whenP2p htold⟩

theorem keeps_topicUnsubscribeAll : Keeps 1 (topicUnsubscribeAll cfg) := by
  have htopic : Keeps 1 (under .topicLock : Program cfg) := keeps_under (by simp)
  have htold : Keeps 1 (alt (p2pLocalUnsubscribe cfg) (opt (p2pLocalSubscribe cfg))) :=
    keeps_p2pLocalSubscribe.alt keeps_p2pLocalSubscribe.opt
  exact above_pair (keeps_whenP2p (above_pair htopic htold).loop) htopic

theorem keeps_topicSubscribe : Keeps 1 (topicSubscribe cfg) :=
  above_block ⟨keeps_under (by simp), keeps_whenP2p keeps_p2pLocalSubscribe.opt⟩

theorem keeps_sends : Keeps 1 (loop call : Program cfg) := keeps_calls.mono (by simp)

theorem keeps_topicDeliverRetained : Keeps 1 (topicDeliverRetained cfg) :=
  (above_pair (keeps_under (by simp)) keeps_sends.loop).opt

theorem keeps_meshFilterCanWithdraw : Keeps 1 (meshFilterCanWithdraw cfg) :=
  (Above.opt (keeps_under (by simp))).opt

theorem keeps_meshClientClose : Keeps 1 (meshClientClose cfg) :=
  keeps_whenP2p (above_pair keeps_meshFilterCanWithdraw keeps_p2pLocalSubscribe.opt).loop

theorem keeps_meshPublishRemote : Keeps 1 (brokerMeshIngressPublishRemote cfg) :=
  (above_pair keeps_sends.opt keeps_meshClientClose.opt).loop

theorem keeps_meshIngressRetryAll : Keeps 1 (meshIngressRetryAll cfg) :=
  (above_pair keeps_sends.loop keeps_meshClientClose.opt).loop

theorem keeps_brokerAcceptOne : Keeps 1 (brokerAcceptOne cfg) := by
  have hpool : Keeps 1 (under .poolLock : Program cfg) := keeps_under (by simp)
  have hreject : Keeps 1 (rejectServerUnavailable cfg) := keeps_sends.opt
  have hadmit := hreject.alt (above_pair hpool hreject.opt)
  exact above_pair keeps_call (above_pair hpool.opt hadmit).opt

theorem keeps_meshIngressAcceptOne : Keeps 1 (meshIngressAcceptOne cfg) := by
  have hreject : Keeps 1 (rejectServerUnavailable cfg) := keeps_sends.opt
  have hgreet := (above_pair keeps_sends hreject.opt).opt
  exact above_pair keeps_call (above_pair keeps_sends hgreet).opt

theorem keeps_handleConnect : Keeps 1 (handleConnect cfg) := by
  have htakeover : Keeps 1 (clientTakeover cfg) := keeps_under (by simp)
  have hsession : Keeps 1 (alt (sessionDelete cfg) (sessionFindOrCreate cfg)) :=
    (Above.opt (keeps_under (by simp))).alt (Above.opt (keeps_under (by simp)))
  have hrestore : Keeps 1 (opt (block [loop (topicSubscribe cfg), sessionDrain cfg])) :=
    (above_pair keeps_topicSubscribe.loop keeps_sends.loop).opt
  exact keeps_sends.opt.alt (above_block ⟨htakeover, hsession, keeps_sends, hrestore⟩)

theorem keeps_handleSubscribe : Keeps 1 (handleSubscribe cfg) :=
  Above.opt (above_block
    ⟨keeps_topicSubscribe.loop, keeps_sends, keeps_topicDeliverRetained.loop⟩)

theorem keeps_handleUnsubscribe : Keeps 1 (handleUnsubscribe cfg) :=
  (above_pair keeps_topicUnsubscribe.loop keeps_sends.opt).opt

theorem keeps_handleStatus : Keeps 1 (handleStatus cfg) := by
  have hsend : Keeps 1 (httpSend cfg) := (above_pair keeps_sends keeps_sends.opt).opt
  exact above_block ⟨keeps_under (by simp), keeps_under (by simp), keeps_under (by simp), hsend⟩

theorem keeps_connectLoop : Keeps 1 (connectLoop cfg) := by
  have hself : Keeps 1 (under .p2pLock : Program cfg) := keeps_under (by simp)
  have hpeer : Keeps 1 (under .peerLock : Program cfg) := keeps_under le_rfl
  have hseed : Keeps 1 (under .seedLock : Program cfg) := keeps_under (by simp)
  have hbudget : Keeps 1 (p2pElectionPeerBudget cfg) :=
    Above.opt (Above.opt (keeps_under (by simp)))
  have hconnect : Keeps 1 (connectToPeer cfg) :=
    above_pair hself (above_pair hpeer keeps_connectToAddr.opt).opt
  have hcandidates := (above_pair hpeer.loop hconnect.loop).opt
  have hmark := (above_pair keeps_connectToAddr.opt hseed).opt
  have hhello : Keeps 1 (sendCurrentHelloToPeers cfg) :=
    above_block ⟨keeps_recomputed, hpeer, keeps_frames⟩
  exact Above.loop (above_block ⟨hself, hseed.opt.loop, hself, hbudget, hpeer.opt, hcandidates, hseed,
    (above_pair hpeer hmark).loop, hhello, keeps_call⟩)

/-! ### Under no mutex -/

theorem keeps_zero (h : Keeps 1 p) : Keeps 0 p := h.mono (by simp)

theorem keeps_p2pPublishFromLocal : Keeps 0 (p2pPublishFromLocal cfg) := by
  have hrouter : Keeps 1 (block [p2pSendPublishFromRouterPrebuilt cfg,
      opt (floodPublishToConnectedPeers cfg)]) :=
    above_pair keeps_fromRouterPrebuilt keeps_flood.opt
  have howner := above_pair (keeps_one keeps_sendFrameToNode) hrouter.opt
  have hstore : Keeps 1 (pendingQosStore cfg) := Above.opt (keeps_under (by simp))
  refine Above.locked (n := 1) (Above.opt ?_) (Nat.zero_le _) (by simp)
  apply above_pair (keeps_under (by simp))
  apply Above.opt
  exact above_block ⟨keeps_shardOwner, hrouter.alt howner, hstore.opt⟩

/-- `topic_lock` is released in the function that sends. -/
theorem keeps_topicPublishInternal (propagate : Bool) :
    Keeps 0 (topicPublishInternal cfg propagate) := by
  have hpropagate : Keeps 0 (whenP2p cfg (if propagate then p2pPublishFromLocal cfg else skip)) := by
    apply keeps_whenP2p
    cases propagate
    · exact above_skip
    · exact keeps_p2pPublishFromLocal
  have hqueue : Keeps 0 (sessionOfflinePublish cfg) := Above.opt (keeps_under (by simp))
  intro H hH
  have hout : Mutex.topicLock ∉ H := fun hl ↦ absurd (hH _ hl) (by simp)
  have hrelease := unlock_after (d := order cfg) (Set.mem_insert Mutex.topicLock H)
  rw [Set.insert_sdiff_self_of_notMem hout] at hrelease
  have hsends : (loop (clientSend cfg)).After (order cfg) H H := keeps_zero keeps_sends.loop H hH
  have hfan : (topicPublishQos0Locked cfg).After (order cfg) (insert .topicLock H) H :=
    ⟨H, hrelease, H, hsends, rfl⟩
  refine ⟨_, lock_after fun l hl ↦ absurd (hH l hl) (by simp), hrelease, ?_⟩
  exact ⟨H, ⟨hfan, hfan⟩, H, hqueue H hH, H, hpropagate H hH, rfl⟩

theorem keeps_meshPublishFromIngress : Keeps 0 (meshPublishFromIngress cfg) :=
  above_pair (keeps_whenP2p keeps_p2pPublishFromLocal) (keeps_zero keeps_meshPublishRemote)

theorem keeps_meshIngressHandleClient : Keeps 0 (meshIngressHandleClient cfg) := by
  have hreply : Keeps 0 (opt (brokerSendAll cfg)) := (keeps_zero keeps_sends).opt
  have hsubscribe : Keeps 0 (meshClientSubscribe cfg) :=
    keeps_whenP2p (keeps_zero keeps_p2pLocalSubscribe).opt
  have hunsubscribe : Keeps 0 (meshClientUnsubscribe cfg) := keeps_whenP2p <| Above.opt <|
    keeps_zero (above_pair keeps_meshFilterCanWithdraw keeps_p2pLocalSubscribe.opt)
  apply Above.opt
  apply above_pair (keeps_zero keeps_sends)
  apply (keeps_zero keeps_meshClientClose).alt
  apply (above_pair keeps_meshPublishFromIngress.opt hreply).alt
  apply (above_pair hsubscribe.opt hreply).alt
  exact (above_pair hunsubscribe.opt hreply).alt hreply.opt

theorem keeps_brokerRun : Keeps 0 (brokerRun cfg) := by
  have haccept : Keeps 0 (brokerAcceptOne cfg) := keeps_zero keeps_brokerAcceptOne
  have hmesh : Keeps 0 (meshIngressAcceptOne cfg) := keeps_zero keeps_meshIngressAcceptOne
  have hwait : Keeps 0 (call : Program cfg) := keeps_zero keeps_call
  apply (haccept.alt hwait).loop.alt
  exact Above.loop (above_block ⟨hwait, haccept.opt, hmesh.opt, keeps_meshIngressHandleClient.loop,
    keeps_zero keeps_meshIngressRetryAll⟩)

theorem keeps_clientFree : Keeps 0 (clientFree cfg) := by
  have hsession : Keeps 0 (sessionFindOrCreate cfg) := Above.opt (keeps_under (by simp))
  have hsubs : Keeps 0 (topicGetClientSubs cfg) := keeps_under (by simp)
  have hsave := (above_pair hsubs hsession).opt
  exact above_block ⟨(keeps_topicPublishInternal true).opt, hsave,
    keeps_zero keeps_topicUnsubscribeAll, hsession.opt⟩

theorem keeps_clientThreadFn : Keeps 0 (clientThreadFn cfg) := by
  have hrecv : Keeps 0 (recvPacket cfg) := keeps_zero keeps_sends
  have hpublish : Keeps 0 (handlePublish cfg) :=
    (above_pair (keeps_topicPublishInternal true).opt (keeps_zero keeps_sends).opt).opt
  have hretry : Keeps 0 (clientInflightRetry cfg) := keeps_zero keeps_sends.loop
  have hdispatch := hretry.alt <| hpublish.alt <| (keeps_zero keeps_handleSubscribe).alt <|
    (keeps_zero keeps_handleUnsubscribe).alt (keeps_zero keeps_sends).opt
  have hserve := above_pair (keeps_zero keeps_handleConnect) (above_pair hrecv hdispatch).loop
  exact above_block ⟨hrecv, hserve.opt, keeps_clientFree⟩

theorem keeps_peerDispatch (slot : Fin cfg.peerMax) : Keeps 0 (peerDispatch slot) := by
  have hrole : Keeps 0 (p2pElectionRole cfg) := keeps_under (by simp)
  have hrouter : Keeps 0 (under .routerLock : Program cfg) := keeps_under (by simp)
  have hnotify : Keeps 0 (sendSubToPeersByRole cfg) := keeps_zero keeps_sendSubToPeersByRole
  have htold := (above_pair hrole (above_pair hnotify hnotify).opt).opt
  have hrelay : Keeps 0 (p2pRouterPublish cfg) := (keeps_zero keeps_fromRouterPrebuilt).opt
  have hpublish : Keeps 0 (peerHandlePublish cfg) := by
    apply Above.opt
    apply above_pair (keeps_under (by simp))
    apply Above.opt
    exact above_block ⟨keeps_topicPublishInternal false, keeps_zero keeps_meshPublishRemote, hrole,
      hrelay.opt⟩
  have hhello := above_pair (keeps_zero (keeps_one (keeps_sendSlot slot)))
    (keeps_zero keeps_updatePeer)
  apply Above.alt
  · exact above_block ⟨hrouter, keeps_zero keeps_flushPendingQos, htold⟩
  · exact (above_pair hrouter htold).alt (hpublish.alt hhello.opt)

theorem keeps_peerLoop (slot : Fin cfg.peerMax) : Keeps 0 (peerLoop slot) := by
  have hrecv : Keeps 0 (recvFrame cfg) := keeps_zero keeps_sends
  have hframe : Keeps 0 (sendFrame cfg) := keeps_sendFrame.mono (by simp)
  have hhello : Keeps 0 (sendHello cfg) := above_pair (keeps_zero keeps_recomputed) hframe
  have hself : Keeps 0 (p2pElectionSelfId cfg) := keeps_under (by simp)
  have hexists : Keeps 0 (connExists cfg) := keeps_under (by simp)
  have hduplicates := (above_pair hself (keeps_zero keeps_closeDuplicateConns).opt).opt
  apply above_block
  refine ⟨hhello, Above.opt (above_pair hrecv (Above.opt ?_)), keeps_zero (keeps_closeConn slot)⟩
  exact above_block ⟨hexists, hduplicates, keeps_zero (keeps_one (keeps_sendSlot slot)),
    keeps_zero keeps_updatePeer, keeps_zero (keeps_advertise slot), keeps_zero keeps_flushPendingQos,
    (above_pair hrecv (keeps_peerDispatch slot)).loop⟩

theorem keeps_httpThread : Keeps 0 (httpThread cfg) := by
  have hwait : Keeps 0 (loop call : Program cfg) := keeps_zero keeps_sends
  have hsend : Keeps 0 (httpSend cfg) := (above_pair hwait hwait.opt).opt
  have hpublish : Keeps 0 (handlePublishApi cfg) :=
    hsend.alt (above_pair (keeps_topicPublishInternal true) hsend)
  have hroute := hsend.alt <| (keeps_zero keeps_handleStatus).alt <|
    above_pair hwait (hsend.alt hpublish)
  exact (above_pair (keeps_zero keeps_call) (above_pair hwait hroute.opt).opt).loop

theorem keeps_application : Keeps 0 (application cfg) := by
  have hunder : ∀ l : Mutex cfg, Keeps 0 (under l) := fun l ↦ keeps_under (Nat.zero_le _)
  have hupdate : Keeps 0 (p2pElectionUpdateSelf cfg) :=
    keeps_zero (above_pair keeps_recomputed keeps_resync.opt)
  apply Above.loop
  apply (hunder .seedLock).alt
  apply (hunder .seedLock).opt.alt
  apply (hunder .peerLock).opt.alt
  apply hupdate.alt
  apply (hunder .routerLock).opt.alt
  apply (hunder .sessionLock).opt.alt
  apply (hunder .sessionLock).opt.alt
  exact (hunder .poolLock).alt (keeps_topicPublishInternal true)

theorem keeps_program (th : Thread cfg) : Keeps 0 th.program := by
  cases th with
  | main => exact above_pair (keeps_whenP2p (keeps_zero keeps_recomputed)) keeps_brokerRun
  | client => exact keeps_clientThreadFn
  | http => exact keeps_httpThread
  | peer slot => exact keeps_peerLoop slot
  | accept =>
      have hspawn : Keeps 0 (find (slots cfg) spawnPeer skip) :=
        above_find (fun slot ↦ keeps_zero (keeps_closeConn slot).opt) above_skip
      have halloc : Keeps 0 (allocConn cfg) := keeps_under (by simp)
      exact (above_pair (keeps_zero keeps_call) (above_pair halloc hspawn).opt).loop
  | connect => exact keeps_zero keeps_connectLoop
  | announce => exact (above_pair (keeps_zero keeps_recomputed) (keeps_zero keeps_call)).loop
  | listen => exact (above_pair (keeps_zero keeps_call) (keeps_zero keeps_updatePeer).opt).loop
  | application => exact keeps_application

/-! ## No deadlock -/

variable {T : Type} [DecidableEq T] {s : State T (Mutex cfg)}

/-- However many threads run which of these functions, and in whatever order they take their
steps: each of them that is not done waits, directly or through others, for one that can go
on.  While it waits for a mutex other than the first four, this one need not be at a call:
a peer that takes nothing from its connection holds up no one there. -/
theorem no_deadlock (threads : T → Thread cfg)
    (h : State.Reach (fun t ↦ (threads t).program) s) (t : T) :
    (s.code t ≠ skip → ∃ u, Relation.ReflTransGen s.WaitsFor t u ∧ ∃ x s', s.Step u x s') ∧
      ∀ l, s.At t l → 4 ≤ l.rank → ∃ u, Relation.ReflTransGen s.WaitsFor t u ∧
        ∃ x s', s.Step u x s' ∧ x ≠ .call := by
  have hordered : s.Ordered (order cfg) :=
    State.ordered_of_reach (fun t ↦ keeps_program (threads t)) h
  exact ⟨hordered.waiting_ends, fun l hat hl ↦ hordered.quiet_waiting_ends hat hl⟩

/-- Two threads that meet at `p2p_lock`. -/
def meeting : Fin 2 → Thread Config.posix := ![.announce, .main]

theorem no_deadlock_meeting :
    ∃ s : State (Fin 2) (Mutex Config.posix), State.Reach (fun t ↦ (meeting t).program) s ∧
      s.WaitsFor 1 0 ∧ ∃ u, Relation.ReflTransGen s.WaitsFor 1 u ∧
        ∃ x s', s.Step u x s' ∧ x ≠ .call := by
  let round : Program Config.posix := block [p2pElectionBuildAnnounce _, call]
  let s₁ : State (Fin 2) (Mutex Config.posix) :=
    ⟨fun _ ↦ none, Function.update (fun t ↦ (meeting t).program) 0 (seq round (loop round))⟩
  have hround : (State.start fun t ↦ (meeting t).program).Step 0 .silent s₁ := .silent (.again _)
  obtain ⟨s, htake, hown, c, hat⟩ : ∃ s, s₁.Step 0 (.acquire .p2pLock) s ∧
      s.owner .p2pLock = some 0 ∧ s.At 1 .p2pLock :=
    ⟨_, .acquire _ (.seq (.seq (.seq (.lock _)))) rfl, rfl, _, .seq (.seq (.lock _))⟩
  have hreach : State.Reach (fun t ↦ (meeting t).program) s :=
    .tail (.tail .refl ⟨0, _, hround⟩) ⟨0, _, htake⟩
  refine ⟨s, hreach, ⟨_, c, hat, hown⟩, ?_⟩
  exact (no_deadlock meeting hreach 1).2 .p2pLock ⟨c, hat⟩ le_rfl

end MqttBroker.Locks
