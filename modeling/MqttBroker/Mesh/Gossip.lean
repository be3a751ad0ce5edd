import MqttBroker.Mesh.Routes
import MqttBroker.Lib.Observer

/-!
# Subscriptions between brokers

The SUB_NOTIFY and UNSUB_NOTIFY frames of a network of brokers.  A broker tells
its peers about the subscriptions of its own clients; a router passes on what is
new to it.
-/

namespace MqttBroker

variable {cfg : Config} {N : Type}

/-- `p2p_sub_msg_t` -/
structure P2pSubMsg where
  ownerId : NodeId
  filter : CStr
  qos : UInt8
  deriving DecidableEq

/-- A SUB_NOTIFY or UNSUB_NOTIFY frame under way. -/
structure SubFrame (N : Type) where
  src : N
  dst : N
  /-- `P2P_SUB_NOTIFY` -/
  notify : Bool
  msg : P2pSubMsg
  deriving DecidableEq

/-- The links, the route tables and the frames under way. -/
structure GossipState (cfg : Config) (N : Type) where
  /-- the connected entries of `conns`, in order -/
  peers : N → List N
  routes : N → RouteTable cfg
  flight : List (SubFrame N)

/-- What a broker finds out while it handles one event. -/
structure GossipEnv (N : Type) where
  /-- `p2p_election_role` is `ROUTER` -/
  router : Bool
  /-- the recorded role of a peer is `ROUTER` -/
  peerRouter : N → Bool
  /-- `p2p_shard_owner_for_filter` -/
  shardOwner : NodeId
  sendOk : N → Bool

inductive GossipEvent (N : Type) where
  /-- `p2p_local_subscribe` -/
  | subscribe (n : N) (filter : CStr) (qos : UInt8) (env : GossipEnv N)
  /-- `p2p_local_unsubscribe` -/
  | unsubscribe (n : N) (filter : CStr) (env : GossipEnv N)
  /-- `advertise_local_subs_to` for these entries of the topic table -/
  | advertise (n m : N) (subs : List (CStr × UInt8)) (env : GossipEnv N)
  /-- one of the frames is handled -/
  | handle (i : ℕ) (env : GossipEnv N)
  /-- one of the frames is lost with its connection -/
  | lose (i : ℕ)
  /-- `n` has a new connection to `m` -/
  | connect (n m : N)
  /-- `close_conn` at `n` -/
  | disconnect (n m : N)

section

variable (id : N → NodeId) (s : GossipState cfg N)

namespace GossipState

/-- `send_sub_to_node_unlocked`: the broker a frame for this id is sent to. -/
def sendTo (n : N) (env : GossipEnv N) (hop : NodeId) : Option N :=
  ((s.peers n).find? fun m ↦ id m = hop).filter (env.sendOk ·)

/-- `send_sub_to_peers_by_role`: where the frame is sent. -/
def sendByRole (n : N) (env : GossipEnv N) (exclude : Option NodeId) (routersOnly : Bool) :
    List N :=
  ((s.peers n).filter fun m ↦ env.peerRouter m == routersOnly && some (id m) ≠ exclude).filterMap
    fun m ↦ s.sendTo id n env (id m)

/-- The sends of `p2p_local_subscribe` and `p2p_local_unsubscribe`. -/
def localTargets (n : N) (env : GossipEnv N) : List N :=
  (if env.shardOwner ≠ id n then (s.sendTo id n env env.shardOwner).toList else []) ++
    s.sendByRole id n env none true

/-- What a broker sends on when a notification has changed its table. -/
def passedOn (f : SubFrame N) (env : GossipEnv N) : List (SubFrame N) :=
  if env.router then
    (s.sendByRole id f.dst env (some (id f.src)) true ++
      s.sendByRole id f.dst env (some (id f.src)) false).map (⟨f.dst, ·, f.notify, f.msg⟩)
  else []

/-- The cases `P2P_SUB_NOTIFY` and `P2P_UNSUB_NOTIFY` of `peer_loop`: whether the
table changes, and the table. -/
def handled (f : SubFrame N) : Bool × RouteTable cfg :=
  if f.notify then
    (s.routes f.dst).remoteSubscribe f.msg.ownerId f.msg.filter f.msg.qos (id f.src)
  else (s.routes f.dst).remoteUnsubscribe f.msg.ownerId f.msg.filter

end GossipState

/-- The frames a broker sends about its own subscription. -/
def localFrames (n : N) (notify : Bool) (filter : CStr) (qos : UInt8) (targets : List N) :
    List (SubFrame N) :=
  if qos ≤ 2 ∧ filter.length < MQTT_TOPIC_MAX then
    targets.map (⟨n, ·, notify, ⟨id n, filter, qos⟩⟩)
  else []

variable [DecidableEq N]

/-- One step of a broker.  No broker has a link to itself. -/
def gossip (e : GossipEvent N) : Option (GossipState cfg N) :=
  match e with
  | .subscribe n filter qos env =>
      some { s with
        flight := s.flight ++ localFrames id n true filter qos (s.localTargets id n env) }
  | .unsubscribe n filter env =>
      some { s with
        flight := s.flight ++ localFrames id n false filter 0 (s.localTargets id n env) }
  | .advertise n m subs env =>
      if m ∉ s.peers n then none
      else
        let frames := if env.peerRouter m ∧ env.sendOk m then
          subs.map fun sub ↦
            ⟨n, m, true, ⟨id n, sub.1.take (MQTT_TOPIC_MAX - 1), sub.2⟩⟩ else []
        some { s with flight := s.flight ++ frames }
  | .handle i env =>
      s.flight[i]?.map fun f ↦
        let r := s.handled id f
        { s with
          routes := Function.update s.routes f.dst r.2
          flight := s.flight.eraseIdx i ++ if r.1 then s.passedOn id f env else [] }
  | .lose i => some { s with flight := s.flight.eraseIdx i }
  | .connect n m =>
      if id m = id n then none
      else some { s with peers := Function.update s.peers n (s.peers n ++ [m]) }
  | .disconnect n m =>
      let peers := (s.peers n).erase m
      let routes := if peers.any fun k ↦ id k = id m then s.routes n
        else (s.routes n).removeNode (id m)
      some { s with
        peers := Function.update s.peers n peers
        routes := Function.update s.routes n routes }

end

/-! ## Where frames come from and go to -/

section

variable {id : N → NodeId} {s : GossipState cfg N} {n m : N} {env : GossipEnv N}

theorem GossipState.sendTo_mem {hop : NodeId} (h : s.sendTo id n env hop = some m) :
    m ∈ s.peers n ∧ id m = hop := by
  obtain ⟨h, -⟩ := Option.filter_eq_some_iff.mp h
  exact ⟨List.mem_of_find?_eq_some h, by simpa using List.find?_some h⟩

theorem GossipState.sendByRole_mem {exclude : Option NodeId} {routersOnly : Bool}
    (h : m ∈ s.sendByRole id n env exclude routersOnly) :
    m ∈ s.peers n ∧ some (id m) ≠ exclude := by
  obtain ⟨k, hk, hsend⟩ := List.mem_filterMap.mp h
  obtain ⟨hm, hid⟩ := sendTo_mem hsend
  have hexclude := (List.mem_filter.mp hk).2
  rw [hid]
  exact ⟨hm, (by simpa using hexclude : _ ∧ some (id k) ≠ exclude).2⟩

theorem GossipState.localTargets_mem (h : m ∈ s.localTargets id n env) : m ∈ s.peers n := by
  rcases List.mem_append.mp h with h | h
  · split_ifs at h
    · exact (sendTo_mem (Option.mem_toList.mp h)).1
    · cases h
  · exact (sendByRole_mem h).1

theorem localFrames_mem {notify : Bool} {filter : CStr} {qos : UInt8} {targets : List N}
    {f : SubFrame N} (h : f ∈ localFrames id n notify filter qos targets) :
    f.src = n ∧ f.dst ∈ targets ∧ f.msg.ownerId = id n := by
  unfold localFrames at h
  split_ifs at h
  · obtain ⟨k, hk, rfl⟩ := List.mem_map.mp h
    exact ⟨rfl, hk, rfl⟩
  · cases h

/-- A notification is passed on to the other peers, by routers. -/
theorem GossipState.passedOn_mem {f g : SubFrame N} (h : g ∈ s.passedOn id f env) :
    env.router = true ∧ g.msg = f.msg ∧ g.notify = f.notify ∧ g.dst ∈ s.peers f.dst ∧
      id g.dst ≠ id f.src := by
  unfold passedOn at h
  split_ifs at h with hrouter
  · obtain ⟨k, hk, rfl⟩ := List.mem_map.mp h
    rcases List.mem_append.mp hk with hk | hk
    all_goals
      obtain ⟨hpeer, hne⟩ := sendByRole_mem hk
      exact ⟨hrouter, rfl, rfl, hpeer, fun heq ↦ hne (by rw [heq])⟩
  · cases h

end

/-! ## Own subscriptions that come back -/

section

open Observer

variable [DecidableEq N]

/-- The network without an observer. -/
def gossiping (cfg : Config) (id : N → NodeId) :
    System (GossipState cfg N) (GossipEvent N) Unit where
  step s e := gossip id s e
  note _ _ n := n

/-- The brokers after their start. -/
def GossipState.start (cfg : Config) (N : Type) : GossipState cfg N :=
  ⟨fun _ ↦ [], fun _ ↦ .init cfg, []⟩

/-- A notification that a router passes on, and whose owner is among its peers,
came from the owner. -/
def NotEchoed (id : N → NodeId) (s : GossipState cfg N) (_ : Unit) : GossipEvent N → Prop
  | .handle i env => ∀ f ∈ s.flight[i]?, f.notify = true → env.router = true →
      (s.routes f.dst).Learns f.msg.ownerId f.msg.filter f.msg.qos (id f.src) →
      ∀ m ∈ s.peers f.dst, id m = f.msg.ownerId → id f.src = f.msg.ownerId
  | _ => True

instance (id : N → NodeId) (s : GossipState cfg N) (u : Unit) : DecidablePred (NotEchoed id s u)
  | .handle i _ => inferInstanceAs (Decidable (∀ f ∈ s.flight[i]?, _ → _ → _ → _))
  | .subscribe _ _ _ _ | .unsubscribe _ _ _ | .advertise _ _ _ _ | .lose _ | .connect _ _ |
    .disconnect _ _ => inferInstanceAs (Decidable True)

/-- No broker has or is about to get a route of its own. -/
structure NoEcho (id : N → NodeId) (s : GossipState cfg N) : Prop where
  peers : ∀ n, ∀ m ∈ s.peers n, id m ≠ id n
  flight : ∀ f ∈ s.flight, f.notify = true → id f.dst ≠ f.msg.ownerId
  routes : ∀ n, ¬ (s.routes n).Owns (id n)

variable {id : N → NodeId} {s s' : GossipState cfg N} {e : GossipEvent N}

omit [DecidableEq N] in
theorem NoEcho.add (h : NoEcho id s) {frames : List (SubFrame N)}
    (hframes : ∀ f ∈ frames, f.notify = true → id f.dst ≠ f.msg.ownerId) :
    NoEcho id { s with flight := s.flight ++ frames } where
  peers := h.peers
  flight f hf := (List.mem_append.mp hf).elim (h.flight f) (hframes f)
  routes := h.routes

theorem noEcho_step (h : NoEcho id s) (hallowed : NotEchoed id s () e)
    (hstep : gossip id s e = some s') : NoEcho id s' := by
  have hlocal : ∀ {n notify filter qos targets}, (∀ m ∈ targets, m ∈ s.peers n) →
      ∀ f ∈ localFrames id n notify filter qos targets, f.notify = true →
        id f.dst ≠ f.msg.ownerId := by
    intro n notify filter qos targets htargets f hf _
    obtain ⟨-, hdst, howner⟩ := localFrames_mem hf
    rw [howner]
    exact h.peers n _ (htargets _ hdst)
  cases e with
  | subscribe n filter qos env =>
      cases hstep
      exact h.add (hlocal fun m hm ↦ GossipState.localTargets_mem hm)
  | unsubscribe n filter env =>
      cases hstep
      exact h.add (hlocal fun m hm ↦ GossipState.localTargets_mem hm)
  | advertise n m subs env =>
      unfold gossip at hstep
      dsimp only at hstep
      split_ifs at hstep with hpeer hsend
      · cases hstep
        refine h.add fun f hf _ ↦ ?_
        obtain ⟨sub, -, rfl⟩ := List.mem_map.mp hf
        exact h.peers n m hpeer
      · cases hstep
        exact h.add (by simp)
  | handle i env =>
      obtain ⟨f, hf, rfl⟩ := Option.map_eq_some_iff.mp hstep
      have hmem := List.mem_of_getElem? hf
      refine ⟨h.peers, fun g hg hnotify ↦ ?_, fun n ↦ ?_⟩
      · rcases List.mem_append.mp hg with hg | hg
        · exact h.flight g (List.mem_of_mem_eraseIdx hg) hnotify
        · split_ifs at hg with hchanged
          · obtain ⟨hrouter, hmsg, hkind, hpeer, hne⟩ := GossipState.passedOn_mem hg
            rw [hkind] at hnotify
            rw [hmsg]
            intro howner
            unfold GossipState.handled at hchanged
            rw [if_pos hnotify, RouteTable.remoteSubscribe_changed] at hchanged
            have hsrc := hallowed f hf hnotify hrouter hchanged _ hpeer howner
            exact hne (howner.trans hsrc.symm)
          · cases hg
      · dsimp only
        by_cases hn : n = f.dst
        · subst hn
          rw [Function.update_self]
          intro howns
          unfold GossipState.handled at howns
          split_ifs at howns with hnotify
          · rcases RouteTable.remoteSubscribe_owns howns with howner | howns
            · exact h.flight f hmem hnotify howner
            · exact h.routes _ howns
          · exact h.routes _ (RouteTable.remoteUnsubscribe_owns howns)
        · rw [Function.update_of_ne hn]
          exact h.routes n
  | lose i =>
      cases hstep
      exact ⟨h.peers, fun f hf ↦ h.flight f (List.mem_of_mem_eraseIdx hf), h.routes⟩
  | connect n m =>
      unfold gossip at hstep
      dsimp only at hstep
      split_ifs at hstep with hself
      cases hstep
      refine ⟨fun k j hj ↦ ?_, h.flight, h.routes⟩
      by_cases hk : k = n
      · subst hk
        simp only [Function.update_self] at hj
        rcases List.mem_append.mp hj with hj | hj
        · exact h.peers k j hj
        · rwa [List.mem_singleton.mp hj]
      · simp only [Function.update_of_ne hk] at hj
        exact h.peers k j hj
  | disconnect n m =>
      cases hstep
      refine ⟨fun k j hj ↦ ?_, h.flight, fun k ↦ ?_⟩
      · by_cases hk : k = n
        · subst hk
          simp only [Function.update_self] at hj
          exact h.peers k j (List.mem_of_mem_erase hj)
        · simp only [Function.update_of_ne hk] at hj
          exact h.peers k j hj
      · dsimp only
        by_cases hk : k = n
        · subst hk
          rw [Function.update_self]
          split_ifs
          · exact h.routes k
          · exact fun howns ↦ h.routes k (RouteTable.removeNode_owns howns)
        · rw [Function.update_of_ne hk]
          exact h.routes k

/-- In every network and every order of frames: as long as the notifications
that routers pass on while their owner is a peer came from the owner, no
broker's table holds a node or a route of its own, and all its next hops lead to
the subscriptions of others. -/
theorem no_own_routes {u : Unit} (h : Reach (gossiping cfg id) (NotEchoed id) (.start cfg N) () s u)
    (n : N) : ¬ (s.routes n).Owns (id n) ∧ ∀ topic exclude,
      ∀ hop ∈ (s.routes n).findNextHops topic exclude,
        ∃ owner, owner ≠ id n ∧ (s.routes n).Leads topic hop owner := by
  have hinv : NoEcho id s := by
    refine h.invariant (I := fun s _ ↦ NoEcho id s) ⟨?_, ?_, ?_⟩
      fun _ hI hallowed hstep ↦ noEcho_step hI hallowed hstep
    · simp [GossipState.start]
    · simp [GossipState.start]
    · exact fun n ↦ RouteTable.init_not_owns
  refine ⟨hinv.routes n, fun topic exclude hop hhop ↦ ?_⟩
  obtain ⟨-, owner, filter, hroute, hmatch⟩ := RouteTable.mem_findNextHops hhop
  refine ⟨owner, ?_, filter, hroute, hmatch⟩
  rintro rfl
  exact hinv.routes n (.inr ⟨hop, filter, hroute⟩)

end

/-! ## A triangle -/

open Observer

/-- A router among routers. -/
def routerEnv : GossipEnv (Fin 3) := ⟨true, fun _ ↦ true, fun _ ↦ 0, fun _ ↦ true⟩

def smallId (n : Fin 3) : NodeId := fun _ ↦ UInt8.ofNat (n.val + 1)

/-- All links of three brokers, and a subscription of broker 0. -/
def triangle : List (GossipEvent (Fin 3)) :=
  [.connect 0 1, .connect 0 2, .connect 1 0, .connect 1 2, .connect 2 0, .connect 2 1,
    .subscribe 0 [Ch.slash] 0 routerEnv]

def gossipRun (es : List (GossipEvent (Fin 3))) : Option (GossipState Config.posix (Fin 3)) :=
  es.foldlM (fun s e ↦ gossip smallId s e) (.start Config.posix (Fin 3))

/-- The statement where broker 0 is heard before the others pass it on. -/
theorem no_own_routes_triangle : ∃ s,
    run (gossiping Config.posix smallId) (.start Config.posix (Fin 3), ())
      (triangle ++ [.handle 0 routerEnv, .handle 0 routerEnv]) = some (s, ()) ∧
      ∀ n, ¬ (s.routes n).Owns (smallId n) := by
  have hchecked : checked (gossiping Config.posix smallId) (NotEchoed smallId)
      (.start Config.posix (Fin 3)) ()
      (triangle ++ [.handle 0 routerEnv, .handle 0 routerEnv]) = true := by
    decide +kernel
  obtain ⟨s, u, hrun⟩ := exists_run_of_checked hchecked
  exact ⟨s, hrun, fun n ↦ (no_own_routes (Reach.start.run_of_checked hchecked hrun) n).1⟩

/-- Broker 2 hears of the subscription from broker 1 first, and tells broker 0. -/
theorem own_subscription_comes_back : ∃ s,
    gossipRun (triangle ++ [.handle 0 routerEnv, .handle 1 routerEnv, .handle 1 routerEnv]) =
      some s ∧ (s.routes 0).Owns (smallId 0) ∧
      smallId 2 ∈ (s.routes 0).findNextHops [Ch.slash] none := by
  have hown : (gossipRun (triangle ++
      [.handle 0 routerEnv, .handle 1 routerEnv, .handle 1 routerEnv])).map (fun s ↦
        decide ((∃ i, ((s.routes 0).nodes i).inUse = true ∧
          ((s.routes 0).nodes i).ownerId = smallId 0) ∧
          smallId 2 ∈ (s.routes 0).findNextHops [Ch.slash] none)) = some true := by
    decide +kernel
  obtain ⟨s, hs, hown⟩ := Option.map_eq_some_iff.mp hown
  obtain ⟨hnode, hhop⟩ := of_decide_eq_true hown
  exact ⟨s, hs, .inl hnode, hhop⟩

end MqttBroker
