import MqttBroker.Mesh.Gossip
import MqttBroker.Mesh.Learned
import MqttBroker.Lib.NextHop

/-!
# Routers whose connections come and go

The notifications of a network of routers.  Two brokers have one TCP connection at
a time, which each of them opens and closes on its side.  The frames of a
connection arrive in order, and those not read when it is closed are lost.
-/

namespace MqttBroker

open NextHop Observer

variable {cfg : Config} {N : Type}

/-- One side of the connection between two brokers. -/
inductive LinkEnd where
  | closed
  /-- the HELLO frames have not been exchanged -/
  | hello
  /-- `c->connected` is set -/
  | connected
  /-- after `advertise_local_subs_to` -/
  | serving
  deriving DecidableEq

/-- The connection is one of the connected entries of `conns`. -/
def LinkEnd.Installed (e : LinkEnd) : Prop := e = .connected ∨ e = .serving

instance (e : LinkEnd) : Decidable e.Installed := inferInstanceAs (Decidable (_ ∨ _))

/-- The brokers, with the filters their clients hold and the connections. -/
structure NetState (cfg : Config) (N : Type) where
  mesh : GossipState cfg N
  held : N → List (CStr × UInt8)
  /-- the side of the first broker of the connection to the second one -/
  side : N → N → LinkEnd

inductive NetEvent (N : Type) where
  /-- `p2p_local_subscribe`, also for a filter that is held already -/
  | subscribe (n : N) (filter : CStr) (qos : UInt8) (shardOwner : NodeId)
  /-- `p2p_local_unsubscribe` -/
  | unsubscribe (n : N) (filter : CStr) (shardOwner : NodeId)
  /-- a TCP connection is made -/
  | dial (n m : N)
  /-- `n` has received HELLO from `m` -/
  | install (n m : N)
  | advertise (n m : N)
  /-- one of the frames is handled -/
  | handle (i : ℕ)
  /-- `recv_frame` fails at `n` -/
  | close (n m : N)

namespace NetState

variable (id : N → NodeId) (T : SimpleGraph N) (s : NetState cfg N)

/-- All brokers are routers, and a frame is lost where the other side is closed. -/
def env (n : N) (shardOwner : NodeId) : GossipEnv N :=
  ⟨true, fun _ ↦ true, shardOwner, fun m ↦ s.side m n ≠ .closed⟩

variable [DecidableEq N]

def setSide (n m : N) (e : LinkEnd) (a b : N) : LinkEnd := if a = n ∧ b = m then e else s.side a b

/-- One step.  A new connection is made when both sides have closed the last one. -/
def step [DecidableRel T.Adj] (e : NetEvent N) : Option (NetState cfg N) :=
  match e with
  | .subscribe n filter qos shardOwner =>
      if filter.length < MQTT_TOPIC_MAX ∧ qos ≤ 2 then
        (gossip id s.mesh (.subscribe n filter qos (s.env n shardOwner))).map fun g ↦ { s with
          mesh := g
          held := Function.update s.held n ((filter, qos) :: (s.held n).filter (·.1 ≠ filter)) }
      else none
  | .unsubscribe n filter shardOwner =>
      if filter.length < MQTT_TOPIC_MAX then
        (gossip id s.mesh (.unsubscribe n filter (s.env n shardOwner))).map fun g ↦ { s with
          mesh := g
          held := Function.update s.held n ((s.held n).filter (·.1 ≠ filter)) }
      else none
  | .dial n m =>
      if T.Adj n m ∧ s.side n m = .closed ∧ s.side m n = .closed then
        some { s with
          side := fun a b ↦ if a = n ∧ b = m ∨ a = m ∧ b = n then .hello else s.side a b }
      else none
  | .install n m =>
      if s.side n m = .hello then
        (gossip id s.mesh (.connect n m)).map fun g ↦
          { s with mesh := g, side := s.setSide n m .connected }
      else none
  | .advertise n m =>
      if s.side n m = .connected then
        (gossip id s.mesh (.advertise n m (s.held n) (s.env n (id n)))).map fun g ↦
          { s with mesh := g, side := s.setSide n m .serving }
      else none
  | .handle i =>
      s.mesh.flight[i]?.bind fun f ↦
        if s.side f.dst f.src = .serving ∧
            ∀ g ∈ s.mesh.flight.take i, ¬ (g.src = f.src ∧ g.dst = f.dst) then
          (gossip id s.mesh (.handle i (s.env f.dst (id f.dst)))).map fun g ↦
            { s with mesh := g }
        else none
  | .close n m =>
      if s.side n m = .closed then none
      else
        (if s.side n m = .hello then some s.mesh
          else gossip id s.mesh (.disconnect n m)).map fun g ↦ { s with
            mesh := { g with
              flight := g.flight.filter fun f ↦ ¬ (f.src = m ∧ f.dst = n) }
            side := s.setSide n m .closed }

/-- The brokers after their start. -/
def start (cfg : Config) (N : Type) : NetState cfg N :=
  ⟨.start cfg N, fun _ ↦ [], fun _ _ ↦ .closed⟩

/-- The network without an observer. -/
def networking (cfg : Config) (id : N → NodeId) (T : SimpleGraph N) [DecidableRel T.Adj] :
    System (NetState cfg N) (NetEvent N) Unit where
  step s e := s.step id T e
  note _ _ n := n

end NetState

/-! ## What a broker has been told -/

def SubFrame.About (fr : SubFrame N) (u v : N) (o : NodeId) (f : CStr) : Prop :=
  fr.src = u ∧ fr.dst = v ∧ fr.msg.ownerId = o ∧ fr.msg.filter = f

instance [DecidableEq N] (fr : SubFrame N) (u v : N) (o : NodeId) (f : CStr) :
    Decidable (fr.About u v o f) := inferInstanceAs (Decidable (_ ∧ _ ∧ _ ∧ _))

section

variable [DecidableEq N] {g g' : GossipState cfg N} {u v : N} {o : NodeId} {f : CStr}

/-- The last of the frames about a subscription. -/
def lastAbout (flight : List (SubFrame N)) (u v : N) (o : NodeId) (f : CStr) :
    Option (SubFrame N) :=
  (flight.filter (·.About u v o f)).getLast?

/-- `v` holds a subscription when the frames under way from `u` have been handled. -/
def GossipState.Told (g : GossipState cfg N) (u v : N) (o : NodeId) (f : CStr) : Prop :=
  match lastAbout g.flight u v o f with
  | some fr => fr.notify = true
  | none => (g.routes v).Holds o f

instance : Decidable (g.Told u v o f) := by
  unfold GossipState.Told
  split <;> infer_instance

theorem lastAbout_append {flight frames : List (SubFrame N)} :
    lastAbout (flight ++ frames) u v o f =
      (lastAbout frames u v o f).or (lastAbout flight u v o f) := by
  unfold lastAbout
  rw [List.filter_append, List.getLast?_append]

theorem lastAbout_eq_none {flight : List (SubFrame N)} :
    lastAbout flight u v o f = none ↔ ∀ fr ∈ flight, ¬ fr.About u v o f := by
  unfold lastAbout
  rw [List.getLast?_eq_none_iff, List.filter_eq_nil_iff]
  simp

theorem lastAbout_mem {flight : List (SubFrame N)} {fr : SubFrame N}
    (h : lastAbout flight u v o f = some fr) : fr ∈ flight ∧ fr.About u v o f := by
  simpa using List.mem_filter.mp (List.mem_of_getLast? h)

theorem GossipState.told_congr (hroutes : (g'.routes v).Holds o f ↔ (g.routes v).Holds o f)
    (hflight : lastAbout g'.flight u v o f = lastAbout g.flight u v o f) :
    g'.Told u v o f ↔ g.Told u v o f := by
  unfold Told
  rw [hflight]
  split
  · exact Iff.rfl
  · exact hroutes

theorem GossipState.told_of_empty (h : g.flight = []) :
    g.Told u v o f ↔ (g.routes v).Holds o f := by
  unfold Told
  rw [lastAbout_eq_none.mpr (by simp [h])]

/-- Frames that say the same tell it. -/
theorem GossipState.told_append_of_mem {frames : List (SubFrame N)} {b : Bool}
    (hflight : g'.flight = g.flight ++ frames) {fr : SubFrame N} (hmem : fr ∈ frames)
    (habout : fr.About u v o f) (hall : ∀ fr ∈ frames, fr.About u v o f → fr.notify = b) :
    g'.Told u v o f ↔ b = true := by
  unfold Told
  rw [hflight, lastAbout_append]
  cases hlast : lastAbout frames u v o f with
  | none => exact absurd habout (lastAbout_eq_none.mp hlast fr hmem)
  | some fr' =>
      obtain ⟨hmem', habout'⟩ := lastAbout_mem hlast
      simp [hall fr' hmem' habout']

theorem GossipState.told_append_of_not_mem {frames : List (SubFrame N)}
    (hroutes : (g'.routes v).Holds o f ↔ (g.routes v).Holds o f)
    (hflight : g'.flight = g.flight ++ frames) (hnone : ∀ fr ∈ frames, ¬ fr.About u v o f) :
    g'.Told u v o f ↔ g.Told u v o f := by
  refine told_congr hroutes ?_
  rw [hflight, lastAbout_append, lastAbout_eq_none.mpr hnone, Option.none_or]

/-- A frame that is handled takes effect: what is told stays the same. -/
theorem GossipState.told_handled {i : ℕ} {fr : SubFrame N} (hfr : g.flight[i]? = some fr)
    (hfirst : ∀ fr' ∈ g.flight.take i, ¬ (fr'.src = fr.src ∧ fr'.dst = fr.dst))
    (hflight : g'.flight = g.flight.eraseIdx i)
    (hroutes : (g'.routes v).Holds o f ↔
      if fr.About u v o f then fr.notify = true else (g.routes v).Holds o f) :
    g'.Told u v o f ↔ g.Told u v o f := by
  have hi : i < g.flight.length := (List.getElem?_eq_some_iff.mp hfr).1
  have hsplit : g.flight = g.flight.take i ++ fr :: g.flight.drop (i + 1) := by
    obtain ⟨hi, rfl⟩ := List.getElem?_eq_some_iff.mp hfr
    rw [← List.drop_eq_getElem_cons hi, List.take_append_drop]
  have hafter : g'.flight = g.flight.take i ++ g.flight.drop (i + 1) := by
    rw [hflight, List.eraseIdx_eq_take_drop_succ]
  by_cases habout : fr.About u v o f
  · rw [if_pos habout] at hroutes
    have htake : lastAbout (g.flight.take i) u v o f = none :=
      lastAbout_eq_none.mpr fun fr' hmem habout' ↦ hfirst fr' hmem
        ⟨habout'.1.trans habout.1.symm, habout'.2.1.trans habout.2.1.symm⟩
    unfold Told
    rw [hafter, lastAbout_append, htake, Option.or_none]
    conv_rhs => rw [hsplit, ← List.singleton_append, lastAbout_append, lastAbout_append, htake,
      Option.or_none]
    have hone : lastAbout [fr] u v o f = some fr := by simp [lastAbout, habout]
    rw [hone]
    cases lastAbout (g.flight.drop (i + 1)) u v o f with
    | some fr' => exact Iff.rfl
    | none => exact hroutes
  · rw [if_neg habout] at hroutes
    refine told_congr hroutes ?_
    conv_rhs => rw [hsplit]
    rw [hafter]
    unfold lastAbout
    rw [List.filter_append, List.filter_append, List.filter_cons_of_neg (by simpa using habout)]

end

/-! ## Where frames are sent -/

section

variable {id : N → NodeId} {g : GossipState cfg N} {env : GossipEnv N} {n m k : N}

theorem GossipState.sendTo_eq_some (hid : Function.Injective id) :
    g.sendTo id n env (id k) = some m ↔ m = k ∧ k ∈ g.peers n ∧ env.sendOk k = true := by
  constructor
  · intro h
    obtain ⟨hmem, heq⟩ := sendTo_mem h
    obtain rfl := hid heq
    exact ⟨rfl, hmem, (Option.filter_eq_some_iff.mp h).2⟩
  · rintro ⟨rfl, hmem, hok⟩
    refine Option.filter_eq_some_iff.mpr ⟨?_, hok⟩
    cases hfind : (g.peers n).find? fun k ↦ id k = id m with
    | none => simpa using List.find?_eq_none.mp hfind m hmem
    | some k =>
        have hk : id k = id m := by simpa using List.find?_some hfind
        rw [hid hk]

theorem GossipState.mem_sendByRole (hid : Function.Injective id) {exclude : Option NodeId}
    {routersOnly : Bool} : m ∈ g.sendByRole id n env exclude routersOnly ↔
      m ∈ g.peers n ∧ env.peerRouter m = routersOnly ∧ some (id m) ≠ exclude ∧
        env.sendOk m = true := by
  unfold sendByRole
  simp only [List.mem_filterMap, List.mem_filter, sendTo_eq_some hid, Bool.and_eq_true,
    beq_iff_eq, decide_eq_true_eq]
  constructor
  · rintro ⟨k, ⟨hk, hrole, hexclude⟩, rfl, -, hok⟩
    exact ⟨hk, hrole, hexclude, hok⟩
  · rintro ⟨hm, hrole, hexclude, hok⟩
    exact ⟨m, ⟨hm, hrole, hexclude⟩, rfl, hm, hok⟩

/-- A router among routers tells all its peers. -/
theorem GossipState.mem_localTargets (hid : Function.Injective id)
    (hrouters : ∀ m, env.peerRouter m = true) :
    m ∈ g.localTargets id n env ↔ m ∈ g.peers n ∧ env.sendOk m = true := by
  constructor
  · intro h
    refine ⟨localTargets_mem h, ?_⟩
    rcases List.mem_append.mp h with h | h
    · split_ifs at h
      · exact (Option.filter_eq_some_iff.mp (Option.mem_toList.mp h)).2
      · cases h
    · exact ((mem_sendByRole hid).mp h).2.2.2
  · rintro ⟨hm, hok⟩
    exact List.mem_append_right _ ((mem_sendByRole hid).mpr ⟨hm, hrouters m, by simp, hok⟩)

theorem GossipState.mem_passedOn (hid : Function.Injective id) (hrouter : env.router = true)
    (hrouters : ∀ m, env.peerRouter m = true) {f fr : SubFrame N} :
    fr ∈ g.passedOn id f env ↔ (fr.src = f.dst ∧ fr.notify = f.notify ∧ fr.msg = f.msg) ∧
      fr.dst ∈ g.peers f.dst ∧ fr.dst ≠ f.src ∧ env.sendOk fr.dst = true := by
  unfold passedOn
  rw [if_pos hrouter, List.mem_map]
  simp only [List.mem_append, mem_sendByRole hid, hrouters, ne_eq, Option.some.injEq, true_and,
    Bool.true_eq_false, false_and, and_false, or_false]
  constructor
  · rintro ⟨k, ⟨hk, hne, hok⟩, rfl⟩
    exact ⟨⟨rfl, rfl, rfl⟩, hk, fun h ↦ hne (congrArg id h), hok⟩
  · rintro ⟨⟨hsrc, hkind, hmsg⟩, hk, hne, hok⟩
    refine ⟨fr.dst, ⟨hk, fun h ↦ hne (hid h), hok⟩, ?_⟩
    cases fr
    cases hsrc
    cases hkind
    cases hmsg
    rfl

theorem mem_localFrames {notify : Bool} {filter : CStr} {qos : UInt8} {targets : List N}
    (hlen : filter.length < MQTT_TOPIC_MAX) (hqos : qos ≤ 2) {fr : SubFrame N} :
    fr ∈ localFrames id n notify filter qos targets ↔
      ∃ m ∈ targets, fr = ⟨n, m, notify, ⟨id n, filter, qos⟩⟩ := by
  unfold localFrames
  rw [if_pos ⟨hqos, hlen⟩, List.mem_map]
  simp only [eq_comm]

end

end MqttBroker
