import MqttBroker.Mesh.Message

/-!
# The role of a broker

`p2p_election.c`: every broker ranks itself and the peers it has heard from, and
is a router if it is among the first ones.  Its role and a signature of the
routers are computed again at every call, and the local subscriptions are sent
to the peers again when the call has seen a change.
-/

namespace MqttBroker

variable {cfg : Config}

def P2P_PEER_TIMEOUT_MS : ℤ := 15000

inductive P2pRole where
  | leaf
  | router
  deriving DecidableEq

/-- The value in a `uint8_t`. -/
def P2pRole.toByte : P2pRole → UInt8
  | leaf => 0
  | router => 1

/-- `p2p_peer_score_t` -/
structure P2pPeerScore where
  nodeId : NodeId
  addr : UInt32
  mqttPort : UInt16
  p2pPort : UInt16
  score : ℤ
  role : UInt8
  lastSeenMs : ℤ
  inUse : Bool

/-- `p2p_announce_t` -/
structure P2pAnnounce where
  nodeId : NodeId
  mqttPort : UInt16
  p2pPort : UInt16
  score : ℤ
  role : UInt8

/-- `p2p_state_t`; slot 0 of `peers` is the node itself. -/
structure P2pState (cfg : Config) where
  selfId : NodeId
  peers : Fin (cfg.peerMax + 1) → P2pPeerScore
  role : P2pRole
  topologySig : UInt32
  publishCount : ℕ
  publishRate : ℕ
  publishWindowMs : ℤ

/-- `p2p_router_stats_t` -/
structure P2pRouterStats where
  remoteNodes : ℕ
  remoteSubs : ℕ
  exactRoutes : ℕ
  wildcardRoutes : ℕ

/-- How the election was built, and what it asks the rest of the program during a call. -/
structure ElectionEnv where
  /-- `CONFIG_MQTT_P2P_STATIC_SEEDS_ONLY` -/
  staticSeedsOnly : Bool
  /-- `P2P_ROUTER_COUNT` -/
  routerCount : ℕ
  /-- `plat_uptime_ms()` -/
  now : ℤ
  /-- `client_free_slots()` -/
  freeSlots : ℤ
  /-- `p2p_router_stats` -/
  stats : P2pRouterStats

/-! ## The code -/

/-- `score_before` -/
def scoreBefore (a b : P2pPeerScore) : Bool :=
  if a.score ≠ b.score then b.score < a.score else a.nodeId.before b.nodeId

/-- The inner loop of the sort: what takes the place of `cur`, and the rest. -/
def sweep (cur : P2pPeerScore) : List P2pPeerScore → P2pPeerScore × List P2pPeerScore
  | [] => (cur, [])
  | p :: ps =>
      if !scoreBefore cur p then
        let (best, rest) := sweep p ps
        (best, cur :: rest)
      else
        let (best, rest) := sweep cur ps
        (best, p :: rest)

/-- The sort in `recompute_role_locked`, for so many entries. -/
def exchangeSort : ℕ → List P2pPeerScore → List P2pPeerScore
  | n + 1, p :: ps =>
      let (best, rest) := sweep p ps
      best :: exchangeSort n rest
  | _, ps => ps

/-- The loop over `candidate` in `router_target_count`, as far as `best_count`. -/
def bestCandidate (reward : ℕ → ℤ) (count : ℕ) : ℕ :=
  ((List.range count).foldl (fun (best : Option (ℤ × ℕ)) c ↦
    match best with
    | none => some (reward (c + 1), c + 1)
    | some (r, _) => if r < reward (c + 1) then some (reward (c + 1), c + 1) else best) none).elim
      1 Prod.snd

/-- `router_target_count` -/
def routerTargetCount (env : ElectionEnv) (publishRate activeNodes : ℕ) : ℕ :=
  if activeNodes ≤ 1 then activeNodes
  else if 0 < env.routerCount then min env.routerCount activeNodes
  else
    let s := env.stats
    let publishPressure : ℤ := min publishRate 4000
    let remotePressure : ℤ := s.remoteSubs * 4 + s.exactRoutes * 2 + s.wildcardRoutes * 3 +
      s.remoteNodes * 6
    if activeNodes ≤ 5 ∧ (0 < publishPressure ∨ 0 < remotePressure ∨ 0 < s.remoteNodes) then
      activeNodes
    else
      bestCandidate (fun candidate ↦
        let span : ℤ := (activeNodes + candidate - 1) / candidate
        let densityBonus := remotePressure * candidate / activeNodes
        let connectivityBonus : ℤ := if 1 < candidate then Nat.log 2 candidate * 10 else 0
        let cost := candidate * 14 + span * span * 3 + activeNodes * 2
        env.freeSlots * 8 + publishPressure / 8 + densityBonus + connectivityBonus - cost)
        activeNodes

/-- `hash_update` -/
def hashUpdate (hash : UInt32) (data : Bytes) : UInt32 :=
  data.foldl (fun h c ↦ (h ^^^ c.toUInt32) * 16777619) hash

/-- An `int` as it lies in memory. -/
def intBytes (n : ℕ) : Bytes :=
  [UInt8.ofNat n, UInt8.ofNat (n / 2 ^ 8), UInt8.ofNat (n / 2 ^ 16), UInt8.ofNat (n / 2 ^ 24)]

namespace P2pState

variable (st : P2pState cfg) (env : ElectionEnv)

/-- `flush_publish_window_locked` -/
def flushPublishWindow (now : ℤ) : P2pState cfg :=
  if st.publishWindowMs = 0 then { st with publishWindowMs := now }
  else if 1000 ≤ now - st.publishWindowMs then
    { st with
      publishRate := st.publishCount * 1000 / (now - st.publishWindowMs).toNat % 2 ^ 32
      publishCount := 0
      publishWindowMs := now }
  else st

/-- The slots of the peers. -/
def peerSlots (cfg : Config) : List (Fin (cfg.peerMax + 1)) :=
  (List.finRange (cfg.peerMax + 1)).drop 1

/-- `expire_old_peers` -/
def expireOldPeers (now : ℤ) : P2pState cfg :=
  { st with peers := fun i ↦
      if i ≠ 0 ∧ (st.peers i).inUse ∧ P2P_PEER_TIMEOUT_MS < now - (st.peers i).lastSeenMs then
        ⟨fun _ ↦ 0, 0, 0, 0, 0, 0, 0, false⟩
      else st.peers i }

/-- `local_score`: the score, and the state after it. -/
def localScore : ℤ × P2pState cfg :=
  let uptimeBonus := if 60000 ≤ env.now then 20 else 0
  let activePeers := (peerSlots cfg).countP fun i ↦ (st.peers i).inUse
  let st := st.flushPublishWindow env.now
  (env.freeSlots * 10 + uptimeBonus - activePeers * 5 - min st.publishRate 1000, st)

/-- `recompute_role_locked` until it collects the nodes. -/
def refreshed : P2pState cfg :=
  let st := st.expireOldPeers env.now
  let (score, st) := st.localScore env
  let self := { st.peers 0 with
    score := score
    role := st.role.toByte
    lastSeenMs := env.now }
  { st with peers := Function.update st.peers 0 self }

/-- The nodes in use, in the order of their slots. -/
def nodesInUse : List P2pPeerScore :=
  ((List.finRange (cfg.peerMax + 1)).map st.peers).filter (·.inUse)

/-- The role and the signature that the nodes heard from in time result in. -/
def elected : P2pRole × UInt32 :=
  let st := st.refreshed env
  if env.staticSeedsOnly then
    (.router, st.nodesInUse.foldl (fun sig p ↦ hashUpdate sig (List.ofFn p.nodeId)) 2166136261)
  else
    let sorted := exchangeSort st.nodesInUse.length st.nodesInUse
    let routerCount := routerTargetCount env st.publishRate sorted.length
    let role : P2pRole :=
      if (sorted.take routerCount).any fun p ↦ p.nodeId = st.selfId then .router else .leaf
    -- the node's own entry still has the role it had before
    (role, (sorted.filter fun p ↦ p.role = P2pRole.router.toByte).foldl
      (fun sig p ↦ hashUpdate sig (List.ofFn p.nodeId))
      (hashUpdate 2166136261 (intBytes routerCount)))

/-- The role and the signature of the node. -/
def pair : P2pRole × UInt32 := (st.role, st.topologySig)

/-- `recompute_role_locked`: whether it has seen a change, and the state after it. -/
def recomputeRole : Bool × P2pState cfg :=
  let (role, sig) := st.elected env
  let new := st.refreshed env
  let self := { new.peers 0 with role := role.toByte }
  (role ≠ st.role || sig ≠ st.topologySig, { new with
    peers := Function.update new.peers 0 self
    role := role
    topologySig := sig })

/-- The slot that `p2p_election_update_peer` fills. -/
def updateSlot (id : NodeId) : Option (Fin (cfg.peerMax + 1)) :=
  ((peerSlots cfg).find? fun i ↦ (st.peers i).inUse && (st.peers i).nodeId = id).or
    ((peerSlots cfg).find? fun i ↦ !(st.peers i).inUse)

end P2pState

/-- The calls of the module. -/
inductive ElectionCall where
  | updateSelf (env : ElectionEnv)
  | updatePeer (ann : P2pAnnounce) (addr : UInt32) (env : ElectionEnv)
  | buildAnnounce (env : ElectionEnv)
  | recordPublish (now : ℤ)

namespace P2pState

/-- `p2p_election_update_self`, `p2p_election_update_peer`,
`p2p_election_build_announce` and `p2p_election_record_publish`: the state, and
whether `p2p_resync_local_subscriptions` is called. -/
def call (st : P2pState cfg) : ElectionCall → P2pState cfg × Bool
  | .updateSelf env =>
      let (changed, st) := st.recomputeRole env
      (st, changed)
  | .updatePeer ann addr env =>
      if ann.nodeId = st.selfId then (st, false)
      else
        match st.updateSlot ann.nodeId with
        | none => (st, false)
        | some i =>
            let peer : P2pPeerScore :=
              ⟨ann.nodeId, addr, ann.mqttPort, ann.p2pPort, ann.score, ann.role, env.now, true⟩
            let (changed, st) :=
              { st with peers := Function.update st.peers i peer }.recomputeRole env
            (st, changed)
  | .buildAnnounce env => ((st.recomputeRole env).2, false)
  | .recordPublish now =>
      let st := st.flushPublishWindow now
      ({ st with publishCount := min (st.publishCount + 1) (2 ^ 32 - 1) }, false)

end P2pState

/-- `p2p_election_init` -/
def P2pState.init (cfg : Config) (nodeId : NodeId) (env : ElectionEnv) : P2pState cfg :=
  let zeroed : P2pPeerScore := ⟨fun _ ↦ 0, 0, 0, 0, 0, 0, 0, false⟩
  let self := { zeroed with
    nodeId := nodeId
    mqttPort := 1883
    p2pPort := 4884
    inUse := true }
  let st : P2pState cfg :=
    ⟨nodeId, Function.update (fun _ ↦ zeroed) 0 self, .router, 0, 0, 0, 0⟩
  (st.recomputeRole env).2

/-! ## Changes and resyncs -/

/-- What happens to the role and the signature of the node. -/
inductive ElectionMark where
  | change
  /-- a call of `p2p_resync_local_subscriptions` -/
  | resync
  deriving DecidableEq

namespace P2pState

variable {st : P2pState cfg} {env : ElectionEnv}

/-- What happens in a call, in order. -/
def marks (st : P2pState cfg) (c : ElectionCall) : List ElectionMark :=
  (if (st.call c).1.pair ≠ st.pair then [.change] else []) ++
    if (st.call c).2 then [.resync] else []

/-- What happens in a sequence of calls. -/
def trace (st : P2pState cfg) : List ElectionCall → List ElectionMark
  | [] => []
  | c :: cs => st.marks c ++ (st.call c).1.trace cs

/-- An announcement sees no change. -/
def Announces (st : P2pState cfg) : ElectionCall → Prop
  | .buildAnnounce env => st.elected env = st.pair
  | _ => True

/-- No announcement in a sequence of calls sees a change. -/
def AnnouncesAll (st : P2pState cfg) : List ElectionCall → Prop
  | [] => True
  | c :: cs => st.Announces c ∧ (st.call c).1.AnnouncesAll cs

theorem recomputeRole_pair : (st.recomputeRole env).2.pair = st.elected env := rfl

theorem recomputeRole_changed : (st.recomputeRole env).1 = true ↔ st.elected env ≠ st.pair := by
  have hpair : st.elected env = st.pair ↔
      (st.elected env).1 = st.role ∧ (st.elected env).2 = st.topologySig := Prod.ext_iff
  rw [ne_eq, hpair]
  simp only [recomputeRole, Bool.or_eq_true, decide_eq_true_eq, ne_eq]
  tauto

theorem flushPublishWindow_pair (now : ℤ) : (st.flushPublishWindow now).pair = st.pair := by
  unfold flushPublishWindow
  split_ifs <;> rfl

/-- The updates resync at once, the announcements never. -/
theorem marks_cases (c : ElectionCall) :
    st.marks c = [] ∧ st.Announces c ∨ st.marks c = [.change, .resync] ∧ st.Announces c ∨
      st.marks c = [.change] ∧ ¬ st.Announces c := by
  have hrecompute : ∀ (st' : P2pState cfg) (env : ElectionEnv), st'.pair = st.pair →
      (st'.recomputeRole env).2.pair = st.pair ∧ (st'.recomputeRole env).1 = false ∨
        (st'.recomputeRole env).2.pair ≠ st.pair ∧ (st'.recomputeRole env).1 = true := by
    intro st' env hst
    rw [recomputeRole_pair, ← hst]
    by_cases h : st'.elected env = st'.pair
    · exact .inl ⟨h, Bool.eq_false_iff.mpr fun hc ↦ recomputeRole_changed.mp hc h⟩
    · exact .inr ⟨h, recomputeRole_changed.mpr h⟩
  cases c with
  | updateSelf env =>
      rcases hrecompute st env rfl with ⟨hpair, hchanged⟩ | ⟨hpair, hchanged⟩
      · exact .inl ⟨by simp [marks, call, hpair, hchanged], trivial⟩
      · exact .inr (.inl ⟨by simp [marks, call, hpair, hchanged], trivial⟩)
  | updatePeer ann addr env =>
      by_cases hself : ann.nodeId = st.selfId
      · exact .inl ⟨by simp [marks, call, hself], trivial⟩
      · cases hslot : st.updateSlot ann.nodeId with
        | none => exact .inl ⟨by simp [marks, call, hself, hslot], trivial⟩
        | some i =>
            let peer : P2pPeerScore :=
              ⟨ann.nodeId, addr, ann.mqttPort, ann.p2pPort, ann.score, ann.role, env.now, true⟩
            rcases hrecompute { st with peers := Function.update st.peers i peer } env rfl with
              ⟨hpair, hchanged⟩ | ⟨hpair, hchanged⟩
            · exact .inl ⟨by simp [marks, call, hself, hslot, peer, hpair, hchanged], trivial⟩
            · exact .inr (.inl ⟨by simp [marks, call, hself, hslot, peer, hpair, hchanged], trivial⟩)
  | buildAnnounce env =>
      by_cases h : st.elected env = st.pair
      · exact .inl ⟨by simp [marks, call, recomputeRole_pair, h], h⟩
      · exact .inr (.inr ⟨by simp [marks, call, recomputeRole_pair, h], h⟩)
  | recordPublish now =>
      have hpair : (st.call (.recordPublish now)).1.pair = st.pair := flushPublishWindow_pair now
      have hresync : (st.call (.recordPublish now)).2 = false := rfl
      refine .inl ⟨?_, trivial⟩
      unfold marks
      rw [hpair, hresync]
      simp

end P2pState

/-- Every change is followed by a resync before the next change. -/
def Resynced (marks : List ElectionMark) : Prop :=
  ∀ past later, marks = past ++ .change :: later → ∃ rest, later = .resync :: rest

theorem resynced_nil : Resynced [] := by
  intro past later h
  simp at h

theorem resynced_cons_cons {marks : List ElectionMark} :
    Resynced (.change :: .resync :: marks) ↔ Resynced marks := by
  constructor
  · intro h past later heq
    exact h (.change :: .resync :: past) later (by rw [heq]; rfl)
  · intro h past later heq
    match past with
    | [] =>
      cases heq
      exact ⟨marks, rfl⟩
    | [_] => simp at heq
    | _ :: _ :: past =>
      simp only [List.cons_append, List.cons.injEq] at heq
      exact h past later heq.2.2

namespace P2pState

variable {st : P2pState cfg}

theorem trace_ne_resync (cs : List ElectionCall) (rest : List ElectionMark) :
    st.trace cs ≠ .resync :: rest := by
  induction cs generalizing st with
  | nil => exact (List.cons_ne_nil _ _).symm
  | cons c cs ih =>
      intro h
      rcases st.marks_cases c with ⟨hmarks, -⟩ | ⟨hmarks, -⟩ | ⟨hmarks, -⟩ <;>
        rw [trace, hmarks] at h
      · exact ih h
      · simp at h
      · simp at h

/-- In every run of the election, from any state: every change of the role or of
the signature is followed by a resync before the next change, if and only if no
announcement is built at a moment when the election has another result than the
node has. -/
theorem resynced_iff (st : P2pState cfg) (cs : List ElectionCall) :
    Resynced (st.trace cs) ↔ st.AnnouncesAll cs := by
  induction cs generalizing st with
  | nil => exact ⟨fun _ ↦ trivial, fun _ ↦ resynced_nil⟩
  | cons c cs ih =>
      rw [trace, AnnouncesAll, ← ih]
      rcases st.marks_cases c with ⟨hmarks, hann⟩ | ⟨hmarks, hann⟩ | ⟨hmarks, hann⟩
      · rw [hmarks, List.nil_append]
        exact ⟨fun h ↦ ⟨hann, h⟩, And.right⟩
      · rw [hmarks, List.cons_append, List.cons_append, List.nil_append, resynced_cons_cons]
        exact ⟨fun h ↦ ⟨hann, h⟩, And.right⟩
      · rw [hmarks]
        refine ⟨fun h ↦ ?_, fun h ↦ absurd h.1 hann⟩
        obtain ⟨rest, hrest⟩ := h [] _ rfl
        exact absurd hrest (trace_ne_resync cs rest)

/-- A build with the defaults, with room for four clients and one remote node. -/
def electionAt (now : ℤ) : ElectionEnv := ⟨false, 0, now, 4, ⟨1, 1, 1, 0⟩⟩

/-- A router announces itself and is never heard of again. -/
def vanishingPeer : List ElectionCall :=
  [.updatePeer ⟨fun _ ↦ 2, 1883, 4884, 50, 1⟩ 0 (electionAt 1000), .buildAnnounce (electionAt 20000)]

/-- The expiry of the peer is seen by the announcement, and by no later call. -/
theorem expiry_not_resynced : ¬ Resynced
    ((P2pState.init Config.posix (fun _ ↦ 1) (electionAt 0)).trace vanishingPeer) := by
  have htrace : (P2pState.init Config.posix (fun _ ↦ 1) (electionAt 0)).trace vanishingPeer =
      [.change, .resync, .change] := by
    decide +kernel
  rw [htrace]
  intro h
  obtain ⟨rest, hrest⟩ := h [.change, .resync] [] rfl
  simp at hrest

end P2pState

end MqttBroker
