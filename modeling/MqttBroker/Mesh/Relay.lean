import MqttBroker.Mesh.FirstFrames
import MqttBroker.Mesh.Loops
import MqttBroker.Mesh.PendingQos
import MqttBroker.PublishFrame
import MqttBroker.Topic.Publish

/-!
# What a publish is after some hops

The brokers of a network parse every P2P_PUBLISH frame they receive and build it
again for the next hops; a frame that no next hop took may wait in `pending_qos`.
Links, roles and routes may be others at every step, and frames may be lost.  What
a broker hands to its subscribers is what a client has published.
-/

namespace MqttBroker

variable {cfg : Config} {k : ℕ} {N T κ : Type}

/-- A P2P_PUBLISH frame under way, as `recv_frame` returns it. -/
structure WireFrame (N : Type) where
  src : N
  dst : N
  buf : Bytes
  deriving DecidableEq

/-- What the brokers keep of publishes; `T` are the threads that flush. -/
structure RelayState (cfg : Config) (k : ℕ) (N T : Type) where
  seen : N → SeenCache cfg
  localSeq : N → UInt16
  pending : N → PendingState k T
  flight : List (WireFrame N)

namespace RelayState

def start (cfg : Config) (k : ℕ) (N T : Type) (seen : N → SeenCache cfg) : RelayState cfg k N T :=
  ⟨seen, fun _ ↦ 0, fun _ ↦ .start k T, []⟩

end RelayState

/-- A step of a broker, with the links, roles and routes at the time. -/
inductive RelayEvent (cfg : Config) (N T : Type) where
  /-- `p2p_publish_from_local` -/
  | publish (net : P2pNet cfg N) (n : N) (pub : MqttPublish) (owner : NodeId) (ok : N → Bool)
  /-- the frame is parsed and handled -/
  | deliver (net : P2pNet cfg N) (i : ℕ) (ok : N → Bool)
  /-- the connection is closed before the frame is read -/
  | lose (i : ℕ)
  /-- `flush_pending_qos_for_filter` copies what matches -/
  | copy (n : N) (t : T) (filter : Option CStr)
  /-- it sends the next copy -/
  | resend (net : P2pNet cfg N) (n : N) (t : T) (ok : N → Bool)
  /-- it clears the slot of what it sent -/
  | clear (n : N) (t : T)

/-- The publish has routes, and none of the next hops took it: `routes > 0 && sent == 0`. -/
def P2pNet.Waits (net : P2pNet cfg N) (n : N) (ok : N → Bool) (topic : CStr) (owner : NodeId) :
    Prop :=
  (owner = net.id n ∨ net.sendTo n ok owner = none) ∧
    (net.routes n).findNextHops topic none ≠ [] ∧ net.sendFromRouter n ok topic none = []

instance (net : P2pNet cfg N) (n : N) (ok : N → Bool) (topic : CStr) (owner : NodeId) :
    Decidable (net.Waits n ok topic owner) := by
  unfold P2pNet.Waits
  infer_instance

namespace RelayState

/-- What `handle_publish` passes to `topic_publish_remote`, if the frame is parsed. -/
def handedBy (s : RelayState cfg k N T) (f : WireFrame N) : Option MqttPublish :=
  (parsePublishFrame f.buf).bind fun msg ↦
    if (seenBefore (s.seen f.dst) msg).1 || MQTT_PAYLOAD_MAX < msg.payload.length then none
    else some msg.toPublish

/-- What `handle_publish` sends, with the frame built again from the message. -/
def relayed (s : RelayState cfg k N T) (net : P2pNet cfg N) (f : WireFrame N) (ok : N → Bool) :
    List (WireFrame N) :=
  match parsePublishFrame f.buf with
  | none => []
  | some msg =>
      if (s.handedBy f).isNone || !net.router f.dst then []
      else
        match buildPublishFrame msg with
        | none => []
        | some frame =>
            (net.sendFromRouter f.dst ok msg.topic (some (net.id f.src))).map (⟨f.dst, ·, frame⟩)

variable [DecidableEq N] [DecidableEq T]

/-- A step of the table `pending_qos` of broker `n`. -/
def onPending (s : RelayState cfg k N T) (n : N) (e : PendingStep T) :
    Option (RelayState cfg k N T) :=
  (pendingStep (s.pending n) e).map fun p ↦
    { s with pending := Function.update s.pending n p }

/-- `p2p_publish_from_local` -/
def publish (s : RelayState cfg k N T) (net : P2pNet cfg N) (n : N) (pub : MqttPublish)
    (owner : NodeId) (ok : N → Bool) : Option (RelayState cfg k N T) :=
  if !localPublishOk pub then some s
  else
    let msg := net.message n (s.localSeq n + 1) pub
    let s := { s with localSeq := Function.update s.localSeq n (s.localSeq n + 1) }
    match buildPublishFrame msg with
    | none => some s
    | some frame =>
        let s := { s with
          flight := s.flight ++ (net.firstHops n ok pub.topic owner).map (⟨n, ·, frame⟩) }
        if 0 < pub.qos ∧ net.Waits n ok pub.topic owner then s.onPending n (.store msg frame)
        else some s

/-- Parsing, `seen_before` and the relaying of one frame. -/
def deliver (s : RelayState cfg k N T) (net : P2pNet cfg N) (i : ℕ) (ok : N → Bool) :
    Option (RelayState cfg k N T) :=
  s.flight[i]?.map fun f ↦
    { s with
      seen := match parsePublishFrame f.buf with
        | none => s.seen
        | some msg => Function.update s.seen f.dst (seenBefore (s.seen f.dst) msg).2
      flight := s.flight.eraseIdx i ++ s.relayed net f ok }

/-- `p2p_send_publish_from_router_prebuilt` of a flush. -/
def resend (s : RelayState cfg k N T) (net : P2pNet cfg N) (n : N) (t : T) (ok : N → Bool) :
    Option (RelayState cfg k N T) :=
  match ((s.pending n).flush t).toSend with
  | [] => none
  | e :: _ =>
      let targets := net.sendFromRouter n ok e.2.msg.topic none
      let sent := targets.map fun m ↦ ⟨n, m, e.2.frame⟩
      { s with flight := s.flight ++ sent }.onPending n
        (.send t ((net.routes n).findNextHops e.2.msg.topic none).length targets.length)

def step (s : RelayState cfg k N T) : RelayEvent cfg N T → Option (RelayState cfg k N T)
  | .publish net n pub owner ok => s.publish net n pub owner ok
  | .deliver net i ok => s.deliver net i ok
  | .lose i => some { s with flight := s.flight.eraseIdx i }
  | .copy n t filter => s.onPending n (.copy t filter)
  | .resend net n t ok => s.resend net n t ok
  | .clear n t => s.onPending n (.clear t)

end RelayState

/-! ## The observer -/

/-- What an observer notes: the calls of `p2p_publish_from_local` and of
`topic_publish_remote`. -/
structure RelayNotes (N : Type) where
  accepted : List (N × MqttPublish) := []
  handed : List (N × MqttPublish) := []

variable [DecidableEq N] [DecidableEq T]

def relayNote (s : RelayState cfg k N T) (e : RelayEvent cfg N T) (n : RelayNotes N) :
    RelayNotes N :=
  match e with
  | .publish _ x pub _ _ => { n with accepted := n.accepted ++ [(x, pub)] }
  | .deliver _ i _ =>
      match s.flight[i]? with
      | some f => { n with handed := n.handed ++ ((s.handedBy f).map fun pub ↦ (f.dst, pub)).toList }
      | none => n
  | _ => n

/-- The node ids stay the same, and a topic is a C string. -/
def RelayAllowed (id : N → NodeId) (_ : RelayState cfg k N T) (_ : RelayNotes N) :
    RelayEvent cfg N T → Prop
  | .publish net _ pub _ _ => net.id = id ∧ 0 ∉ pub.topic
  | _ => True

/-! ## Where a frame comes from -/

/-- The frame of a publish that was accepted. -/
def CarriesAccepted (id : N → NodeId) (accepted : List (N × MqttPublish)) (buf : Bytes) : Prop :=
  ∃ a pub seq, (a, pub) ∈ accepted ∧ 0 ∉ pub.topic ∧ buildPublishFrame
    ⟨id a, seq, pub.topic, pub.payload, pub.qos, pub.retain⟩ = some buf

section

variable {id : N → NodeId} {accepted : List (N × MqttPublish)} {buf : Bytes}

omit [DecidableEq N] in
theorem CarriesAccepted.mono (h : CarriesAccepted id accepted buf) (l : List (N × MqttPublish)) :
    CarriesAccepted id (accepted ++ l) buf := by
  obtain ⟨a, pub, seq, hmem, hrest⟩ := h
  exact ⟨a, pub, seq, List.mem_append_left l hmem, hrest⟩

omit [DecidableEq N] in
/-- It is parsed as the message it was built from, which is built into the same bytes. -/
theorem CarriesAccepted.parse (h : CarriesAccepted id accepted buf) {msg : P2pPublishMsg}
    (hparse : parsePublishFrame buf = some msg) : buildPublishFrame msg = some buf ∧
      ∃ a pub, (a, pub) ∈ accepted ∧ msg.toPublish = { pub with dup := 0, packetId := 0 } := by
  obtain ⟨a, pub, seq, hmem, hnul, hbuild⟩ := h
  obtain ⟨hlens, hwire⟩ := P2pPublishMsg.buildPublishFrame_iff.mp hbuild
  have hparsed := P2pPublishMsg.parse_wire hlens
  rw [← hwire, hparse, cstr_eq_self hnul] at hparsed
  obtain rfl := Option.some.inj hparsed
  refine ⟨hbuild, a, pub, hmem, ?_⟩
  have htopic : pub.topic.take (MQTT_TOPIC_MAX - 1) = pub.topic :=
    List.take_of_length_le (Nat.le_sub_one_of_lt hlens.topic_lt)
  simp [P2pPublishMsg.toPublish, htopic]

end

/-- Every frame that is under way or may still be sent is that of an accepted publish, and so
is what has been handed over. -/
structure RelayInv (id : N → NodeId) (s : RelayState cfg k N T) (n : RelayNotes N) : Prop where
  flight : ∀ f ∈ s.flight, CarriesAccepted id n.accepted f.buf
  pending : ∀ x i, ((s.pending x).pending i).inUse = true →
    CarriesAccepted id n.accepted ((s.pending x).pending i).frame
  batch : ∀ x t, ∀ e ∈ ((s.pending x).flush t).toSend, CarriesAccepted id n.accepted e.2.frame
  handed : ∀ x pub', (x, pub') ∈ n.handed → ∃ a pub, (a, pub) ∈ n.accepted ∧
    pub' = { pub with dup := 0, packetId := 0 }

section

variable {id : N → NodeId} {s s' : RelayState cfg k N T} {n : RelayNotes N}

/-- What a step of `pending_qos` keeps. -/
def PendingCarries (P : Bytes → Prop) (p : PendingState k T) : Prop :=
  (∀ i, (p.pending i).inUse = true → P (p.pending i).frame) ∧
    ∀ t, ∀ e ∈ (p.flush t).toSend, P e.2.frame

omit [DecidableEq N] in
theorem PendingCarries.step {P : Bytes → Prop} {p p' : PendingState k T} (h : PendingCarries P p)
    {e : PendingStep T} (hstore : ∀ msg frame, e = .store msg frame → P frame)
    (hstep : pendingStep p e = some p') : PendingCarries P p' := by
  obtain ⟨hpending, hbatch⟩ := h
  have hupdate : ∀ (t : T) (f : PendingFlush k), (∀ e ∈ f.toSend, P e.2.frame) →
      ∀ t', ∀ e ∈ (Function.update p.flush t f t').toSend, P e.2.frame := by
    intro t f hf t' e he
    by_cases ht : t' = t
    · subst ht
      rw [Function.update_self] at he
      exact hf e he
    · rw [Function.update_of_ne ht] at he
      exact hbatch t' e he
  cases e with
  | store msg frame =>
      simp only [pendingStep] at hstep
      split at hstep
      · cases hstep
        exact ⟨hpending, hbatch⟩
      · rename_i i hslot
        cases hstep
        refine ⟨fun j hj ↦ ?_, hbatch⟩
        by_cases hji : j = i
        · subst hji
          dsimp only
          rw [Function.update_self]
          exact hstore msg frame rfl
        · dsimp only at hj ⊢
          rw [Function.update_of_ne hji] at hj ⊢
          exact hpending j hj
  | copy t filter =>
      simp only [pendingStep] at hstep
      split at hstep
      · cases hstep
        refine ⟨hpending, hupdate t _ fun e he ↦ ?_⟩
        obtain ⟨i, hi, rfl⟩ := List.mem_map.mp he
        have huse := (Bool.and_eq_true_iff.mp (List.mem_filter.mp hi).2).1
        exact hpending i huse
      · cases hstep
  | send t routes sent =>
      simp only [pendingStep] at hstep
      split at hstep
      · rename_i e rest hflush
        cases hstep
        refine ⟨hpending, hupdate t _ fun e' he' ↦ ?_⟩
        apply hbatch t
        rw [hflush]
        exact List.mem_cons_of_mem e he'
      · cases hstep
  | clear t =>
      simp only [pendingStep] at hstep
      split at hstep
      · rename_i rest i hflush
        cases hstep
        refine ⟨fun j hj ↦ ?_, hupdate t _ fun e he ↦ ?_⟩
        · by_cases hji : j = i
          · subst hji
            dsimp only at hj
            rw [Function.update_self] at hj
            cases hj
          · dsimp only at hj ⊢
            rw [Function.update_of_ne hji] at hj ⊢
            exact hpending j hj
        · apply hbatch t
          rw [hflush]
          exact he
      · cases hstep

theorem RelayInv.onPending (h : RelayInv id s n) {x : N} {e : PendingStep T}
    (hstore : ∀ msg frame, e = .store msg frame → CarriesAccepted id n.accepted frame)
    (hstep : s.onPending x e = some s') : RelayInv id s' n := by
  obtain ⟨p, hp, rfl⟩ := Option.map_eq_some_iff.mp hstep
  have hcarries : PendingCarries (CarriesAccepted id n.accepted) p :=
    PendingCarries.step ⟨h.pending x, h.batch x⟩ hstore hp
  refine ⟨h.flight, fun y i hi ↦ ?_, fun y t e he ↦ ?_, h.handed⟩
  · by_cases hyx : y = x
    · subst hyx
      dsimp only at hi ⊢
      rw [Function.update_self] at hi ⊢
      exact hcarries.1 i hi
    · dsimp only at hi ⊢
      rw [Function.update_of_ne hyx] at hi ⊢
      exact h.pending y i hi
  · by_cases hyx : y = x
    · subst hyx
      dsimp only at he
      rw [Function.update_self] at he
      exact hcarries.2 t e he
    · dsimp only at he
      rw [Function.update_of_ne hyx] at he
      exact h.batch y t e he

omit [DecidableEq N] [DecidableEq T] in
/-- One more publish is accepted. -/
theorem RelayInv.accept (h : RelayInv id s n) (a : N) (pub : MqttPublish) :
    RelayInv id s { n with accepted := n.accepted ++ [(a, pub)] } where
  flight f hf := (h.flight f hf).mono _
  pending x i hi := (h.pending x i hi).mono _
  batch x t e he := (h.batch x t e he).mono _
  handed x pub' hmem := by
    obtain ⟨b, pub, hb, heq⟩ := h.handed x pub' hmem
    exact ⟨b, pub, List.mem_append_left _ hb, heq⟩

omit [DecidableEq N] [DecidableEq T] in
theorem RelayInv.send (h : RelayInv id s n) {l : List (WireFrame N)}
    (hl : ∀ f ∈ l, CarriesAccepted id n.accepted f.buf) :
    RelayInv id { s with flight := s.flight ++ l } n where
  flight f hf := by
    rcases List.mem_append.mp hf with hf | hf
    · exact h.flight f hf
    · exact hl f hf
  pending := h.pending
  batch := h.batch
  handed := h.handed

theorem RelayInv.publish (h : RelayInv id s n) {net : P2pNet cfg N} (hid : net.id = id) {a : N}
    {pub : MqttPublish} (hnul : 0 ∉ pub.topic) {owner : NodeId} {ok : N → Bool}
    (hstep : s.publish net a pub owner ok = some s') :
    RelayInv id s' { n with accepted := n.accepted ++ [(a, pub)] } := by
  have hnew := h.accept a pub
  unfold RelayState.publish at hstep
  rcases ite_eq_iff.mp hstep with ⟨-, hstep⟩ | ⟨-, hstep⟩
  · cases hstep
    exact hnew
  dsimp only at hstep
  split at hstep
  · cases hstep
    exact ⟨hnew.flight, hnew.pending, hnew.batch, hnew.handed⟩
  · rename_i frame hbuild
    have hcarries : CarriesAccepted id (n.accepted ++ [(a, pub)]) frame := by
      refine ⟨a, pub, s.localSeq a + 1, by simp, hnul, ?_⟩
      rw [← hid]
      exact hbuild
    have hsent : RelayInv id { s with
        localSeq := Function.update s.localSeq a (s.localSeq a + 1)
        flight := s.flight ++ (net.firstHops a ok pub.topic owner).map (⟨a, ·, frame⟩) }
        { n with accepted := n.accepted ++ [(a, pub)] } := by
      have hquiet : RelayInv id { s with
          localSeq := Function.update s.localSeq a (s.localSeq a + 1) }
          { n with accepted := n.accepted ++ [(a, pub)] } :=
        ⟨hnew.flight, hnew.pending, hnew.batch, hnew.handed⟩
      apply hquiet.send
      intro f hf
      obtain ⟨m, -, rfl⟩ := List.mem_map.mp hf
      exact hcarries
    rcases ite_eq_iff.mp hstep with ⟨-, hstep⟩ | ⟨-, hstep⟩
    · apply hsent.onPending _ hstep
      rintro msg' frame' heq
      cases heq
      exact hcarries
    · cases hstep
      exact hsent

omit [DecidableEq N] [DecidableEq T] in
/-- A relayed frame has the bytes of the one that was received. -/
theorem CarriesAccepted.relayed {net : P2pNet cfg N} {f g : WireFrame N}
    (hf : CarriesAccepted id n.accepted f.buf) {ok : N → Bool} (hg : g ∈ s.relayed net f ok) :
    g.buf = f.buf := by
  unfold RelayState.relayed at hg
  split at hg
  · cases hg
  · rename_i msg hparse
    have hbuild := (hf.parse hparse).1
    split_ifs at hg
    · cases hg
    · rw [hbuild] at hg
      obtain ⟨m, -, rfl⟩ := List.mem_map.mp hg
      rfl

omit [DecidableEq N] [DecidableEq T] in
theorem CarriesAccepted.handedBy {f : WireFrame N} (hf : CarriesAccepted id n.accepted f.buf)
    {pub' : MqttPublish} (h : s.handedBy f = some pub') :
    ∃ a pub, (a, pub) ∈ n.accepted ∧ pub' = { pub with dup := 0, packetId := 0 } := by
  obtain ⟨msg, hparse, hpub⟩ := Option.bind_eq_some_iff.mp h
  obtain ⟨-, a, pub, hmem, heq⟩ := hf.parse hparse
  split_ifs at hpub
  obtain rfl := Option.some.inj hpub
  exact ⟨a, pub, hmem, heq⟩

omit [DecidableEq T] in
theorem RelayInv.deliver (h : RelayInv id s n) {net : P2pNet cfg N} {i : ℕ} {ok : N → Bool}
    (hstep : s.deliver net i ok = some s') :
    RelayInv id s' (relayNote s (.deliver net i ok) n) := by
  obtain ⟨f, hf, rfl⟩ := Option.map_eq_some_iff.mp hstep
  have hcarries : CarriesAccepted id n.accepted f.buf := h.flight f (List.mem_of_getElem? hf)
  have hnote : relayNote s (.deliver net i ok) n =
      { n with handed := n.handed ++ ((s.handedBy f).map fun pub ↦ (f.dst, pub)).toList } := by
    simp [relayNote, hf]
  rw [hnote]
  refine ⟨fun g hg ↦ ?_, h.pending, h.batch, fun x pub' hx ↦ ?_⟩
  · rcases List.mem_append.mp hg with hg | hg
    · exact h.flight g (List.mem_of_mem_eraseIdx hg)
    · rw [hcarries.relayed hg]
      exact hcarries
  · rcases List.mem_append.mp hx with hx | hx
    · exact h.handed x pub' hx
    · obtain ⟨pub'', hhanded, heq⟩ := Option.map_eq_some_iff.mp (Option.mem_toList.mp hx)
      cases heq
      exact hcarries.handedBy hhanded

theorem RelayInv.resend (h : RelayInv id s n) {net : P2pNet cfg N} {x : N} {t : T} {ok : N → Bool}
    (hstep : s.resend net x t ok = some s') : RelayInv id s' n := by
  unfold RelayState.resend at hstep
  split at hstep
  · cases hstep
  · rename_i e rest hbatch
    have hcarries : CarriesAccepted id n.accepted e.2.frame := by
      apply h.batch x t
      rw [hbatch]
      exact List.mem_cons_self
    apply RelayInv.onPending _ (by simp) hstep
    apply h.send
    intro f hf
    obtain ⟨m, -, rfl⟩ := List.mem_map.mp hf
    exact hcarries

/-- The step lemma. -/
theorem RelayInv.step (h : RelayInv id s n) {e : RelayEvent cfg N T} (hallowed : RelayAllowed id s n e)
    (hstep : s.step e = some s') : RelayInv id s' (relayNote s e n) := by
  cases e with
  | publish net x pub owner ok => exact h.publish hallowed.1 hallowed.2 hstep
  | deliver net i ok => exact h.deliver hstep
  | lose i =>
      cases hstep
      exact ⟨fun f hf ↦ h.flight f (List.mem_of_mem_eraseIdx hf), h.pending, h.batch, h.handed⟩
  | copy x t filter => exact h.onPending (by simp) hstep
  | resend net x t ok => exact h.resend hstep
  | clear x t => exact h.onPending (by simp) hstep

end

/-! ## What the subscribers get -/

section

variable [DecidableEq κ]

end

namespace Sample

/-- The lamp is switched on at broker 0, and two brokers pass the message on. -/
def lamp : MqttPublish := ⟨[Ch.slash], [0x31], 1, 0, 1, 7⟩

end Sample

end MqttBroker
