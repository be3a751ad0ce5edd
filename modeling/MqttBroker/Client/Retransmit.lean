import MqttBroker.Client.Inbound
import MqttBroker.Client.Reuse

/-!
# QoS 2 messages over several connections

The table of inbound QoS 2 ids is part of `client_t` and ends with the connection.
A message whose PUBLISH comes again after a reconnect is therefore new to the
connection that receives it.
-/

namespace MqttBroker

variable {cfg : Config} {κ σ : Type}

/-! ## The table of one connection -/

theorem Qos2Table.holds_release_of_ne {q : Qos2Table} {id j : UInt16} (hne : j ≠ id)
    (h : q.Holds j) : (q.release id).Holds j := by
  unfold Qos2Table.release
  split
  · rename_i i hi
    have hid : (q i).packetId = id := by
      have hfind := List.find?_some hi
      simp only [Bool.and_eq_true, decide_eq_true_eq] at hfind
      exact hfind.2
    obtain ⟨k, hk⟩ := h
    have hki : k ≠ i := fun hki ↦ hne (hk.2.symm.trans (hki ▸ hid))
    exact ⟨k, by simpa [hki] using hk⟩
  · exact h

/-- Without a free entry for an id the table is full or has it. -/
theorem Qos2Table.no_room {q : Qos2Table} {id : UInt16} (h : ∀ i, q.slot id ≠ .free i) :
    (∀ i, (q i).inUse = true) ∨ q.Holds id := by
  unfold slot at h
  split_ifs at h with hheld
  · exact Or.inr hheld
  · refine Or.inl fun i ↦ ?_
    split at h
    · rename_i j _
      exact absurd rfl (h j)
    · rename_i hnone
      simpa using List.find?_eq_none.mp hnone i (List.mem_finRange i)

section

variable [DecidableEq κ] {env : Env κ} {b : Broker cfg κ} {me : κ}

/-- A PUBLISH that goes on to `topic_publish` is stored if its QoS is 2. -/
theorem publishBegin_qos2In {b' : Broker cfg κ} {pkt : MqttPacket} {pub : MqttPublish}
    {ack : Option Bytes} (h : publishBegin env b me pkt = some (b', pub, ack)) :
    acceptedPublish pkt = some pub ∧
      (pub.qos = 2 ∧ (∃ i, (b.clients me).qos2In.slot pub.packetId = .free i ∧
          (b'.clients me).qos2In = (b.clients me).qos2In.store pub.packetId i) ∨
        pub.qos ≠ 2 ∧ (b'.clients me).qos2In = (b.clients me).qos2In) := by
  obtain ⟨hok, htype⟩ := publishBegin_header h
  unfold publishBegin at h
  rcases ite_eq_iff.mp h with ⟨-, h⟩ | ⟨-, h⟩
  · cases h
  split at h
  · cases h
  rename_i pub' hparse
  dsimp only at h
  rcases ite_eq_iff.mp h with ⟨-, h⟩ | ⟨htests, h⟩
  · cases h
  have hacc : acceptedPublish pkt = some pub' := by
    have hfilter : pub'.qos ≠ 3 ∧ pub'.topic ≠ [] ∧ hasWildcard pub'.topic = false ∧
        ¬ (0 < pub'.qos ∧ pub'.packetId = 0) := by
      simpa [not_or, and_assoc] using htests
    simp only [acceptedPublish, hok, htype, and_self, if_true, hparse]
    rw [Option.filter_eq_some_iff]
    refine ⟨rfl, ?_⟩
    grind
  rcases ite_eq_iff.mp h with ⟨h2, h⟩ | ⟨h2, h⟩
  · rw [b.updateClient_qos2In me] at h
    split at h
    · rename_i i hslot
      cases h
      refine ⟨hacc, Or.inl ⟨h2, i, hslot, ?_⟩⟩
      rw [Broker.updateClient_qos2In]
      exact congrArg (fun q : Qos2Table ↦ q.store pub.packetId i) (b.updateClient_qos2In me _)
    · cases h
    · cases h
  · cases h
    exact ⟨hacc, Or.inr ⟨h2, b.updateClient_qos2In me _⟩⟩

theorem publishBegin_none {pkt : MqttPacket} {pub : MqttPublish}
    (hacc : acceptedPublish pkt = some pub) (hbegin : publishBegin env b me pkt = none) :
    pub.qos = 2 ∧ ∀ i, (b.clients me).qos2In.slot pub.packetId ≠ .free i := by
  obtain ⟨hok, htype, hparse, h3, hne, hplain, hid⟩ := acceptedPublish_eq_some hacc
  have htests : ¬ (pub.qos = 3 ∨ (pub.topic = [] ∨ hasWildcard pub.topic = true) ∨
      0 < pub.qos ∧ pub.packetId = 0) := by
    simp [h3, hne, hplain, hid]
  simp only [publishBegin, hok, htype, hparse, if_neg htests, Bool.not_true, ne_eq,
    not_true_eq_false, or_self, if_false, Bool.false_eq_true] at hbegin
  rcases ite_eq_iff.mp hbegin with ⟨h2, hbegin⟩ | ⟨-, hbegin⟩
  · rw [b.updateClient_qos2In me] at hbegin
    refine ⟨h2, fun i hi ↦ ?_⟩
    rw [hi] at hbegin
    cases hbegin
  · cases hbegin

/-- Any other packet leaves the table or, a PUBREL, takes its id out. -/
theorem dispatch_qos2In {pkt : MqttPacket} {h : Handled cfg κ} (hl : b.table.IsLinked)
    (hbegin : publishBegin env b me pkt = none) (hrun : dispatch env b me pkt = some h) :
    (h.broker.clients me).qos2In = match releasedId pkt with
      | some id => (b.clients me).qos2In.release id
      | none => (b.clients me).qos2In := by
  cases hacc : acceptedPublish pkt with
  | none =>
      obtain ⟨h', hrun', hq⟩ := dispatch_quiet me hl hacc env
      obtain rfl := Option.some.inj (hrun.symm.trans hrun')
      exact hq.qos2In
  | some pub =>
      rw [releasedId_of_accepted hacc]
      rw [dispatch_accepted hacc] at hrun
      have hl' : (b.updateClient me fun c ↦ { c with lastSeenMs := env.now }).table.IsLinked := hl
      have hseen := b.updateClient_qos2In me fun c ↦ { c with lastSeenMs := env.now }
      generalize b.updateClient me (fun c ↦ { c with lastSeenMs := env.now }) = b' at hrun hl' hseen
      obtain ⟨hqos, hslot⟩ := publishBegin_none hacc hbegin
      rw [← hseen] at hslot
      obtain ⟨h', hrun', -, hq⟩ := publishAccepted_qos2_quiet hl' env hqos hslot
      obtain rfl := Option.some.inj (hrun.symm.trans hrun')
      exact hq.qos2In.trans hseen

/-- The steps of `handle_connect` and `client_free` leave the table. -/
theorem connStep_qos2In {pc pc' : ConnPc cfg} {h : Handled cfg κ}
    (hnext : connStep env b me pc = some (h, pc')) :
    (h.broker.clients me).qos2In = (b.clients me).qos2In := by
  cases pc with
  | takeover conn =>
      cases hnext
      rw [clientTakeover_me]
  | assignId conn => cases hnext; exact b.updateClient_qos2In me (·.assignId conn)
  | assignRest conn => cases hnext; exact b.updateClient_qos2In me (·.assignRest conn)
  | closeFd => cases hnext; exact b.updateClient_qos2In me (·.closeFd)
  | clearWill => cases hnext; exact b.updateClient_qos2In me fun c ↦ { c with hasWill := false }
  | release => cases hnext; exact b.updateClient_qos2In me fun c ↦ { c with state := .free }
  | connack sess present =>
      cases hnext
      exact Handled.reply_qos2In env _ ⟨b, []⟩
  | reply ack =>
      cases hnext
      exact Handled.reply_qos2In env ack ⟨b, []⟩
  | restore i n =>
      simp only [connStep] at hnext
      split at hnext
      · cases hnext
        unfold restoreOne
        split_ifs <;> rfl
      · cases hnext
        rfl
  | drain i =>
      cases hnext
      have hdrain := sentTo_rule.drain (s := b.session i) (fun _ _ ↦ trivial) (b.clients me) env.now
        (env.sendOk me)
      have hclient : (drainSession env me i ⟨b, []⟩).broker.clients me =
          ((b.session i).drain (b.clients me) env.now (env.sendOk me)).2.1 :=
        Function.update_self _ _ _
      exact (congrArg Client.qos2In hclient).trans hdrain.qos2In
  | will =>
      simp only [connStep] at hnext
      split_ifs at hnext
      cases hnext
      rfl
  | saveInflight i n =>
      simp only [connStep] at hnext
      split at hnext <;> cases hnext <;> rfl
  | unsubscribe =>
      obtain ⟨r, -, heq⟩ := Option.map_eq_some_iff.mp hnext
      cases heq
      rfl
  | delete =>
      cases hnext
      dsimp only
      split_ifs <;> rfl
  | openSession | online | loop | collect | lookup | saveSubs => cases hnext; rfl
  | idle | waiting | recv | publish => cases hnext

end

theorem inflightRetry_qos2In (c : Client) (now : ℤ) (sendOk : Bool) :
    (c.inflightRetry now sendOk).1.qos2In = c.qos2In := by
  unfold Client.inflightRetry
  dsimp only
  split_ifs
  · rfl
  · exact (Client.clientSend_sentTo _ sendOk).qos2In

/-- Before `client_t` has its client id. -/
def ConnPc.Nameless : ConnPc cfg → Prop
  | .waiting | .takeover _ | .assignId _ => True
  | _ => False

theorem connStep_named [DecidableEq κ] {env : Env κ} {b : Broker cfg κ} {me : κ}
    {pc pc' : ConnPc cfg} {h : Handled cfg κ} (hnext : connStep env b me pc = some (h, pc'))
    (hpc : ¬ pc.Nameless) : ¬ pc'.Nameless := by
  cases pc with
  | takeover | assignId => exact absurd trivial hpc
  | connack sess present =>
      cases hnext
      rcases sess with - | i <;> cases present <;> exact id
  | restore i n | saveInflight i n =>
      simp only [connStep] at hnext
      split at hnext <;> cases hnext <;> exact id
  | loop | collect =>
      cases hnext
      split_ifs <;> exact id
  | will =>
      simp only [connStep] at hnext
      split_ifs at hnext
      cases hnext
      exact id
  | lookup subs =>
      cases hnext
      split <;> exact id
  | unsubscribe =>
      obtain ⟨r, -, heq⟩ := Option.map_eq_some_iff.mp hnext
      cases heq
      split_ifs <;> exact id
  | idle | waiting | recv | publish => cases hnext
  | _ => cases hnext; exact id

theorem connStep_pc_ne_publish [DecidableEq κ] {env : Env κ} {b : Broker cfg κ} {me : κ}
    {pc pc' : ConnPc cfg} {h : Handled cfg κ} (hnext : connStep env b me pc = some (h, pc'))
    (pub : MqttPublish) (ack : Option Bytes) : pc' ≠ .publish pub ack := by
  cases pc with
  | connack sess present =>
      cases hnext
      rcases sess with - | i <;> cases present <;> simp [ConnPc.afterConnack]
  | restore i n | saveInflight i n =>
      simp only [connStep] at hnext
      split at hnext <;> cases hnext <;> simp
  | loop | collect =>
      cases hnext
      split_ifs <;> simp
  | will =>
      simp only [connStep] at hnext
      split_ifs at hnext
      cases hnext
      simp
  | lookup subs =>
      cases hnext
      split <;> simp
  | unsubscribe =>
      obtain ⟨r, -, heq⟩ := Option.map_eq_some_iff.mp hnext
      cases heq
      split_ifs <;> simp
  | idle | waiting | recv | publish => cases hnext
  | _ => cases hnext; simp

namespace Threads

variable [DecidableEq κ] [DecidableEq σ] {s s' : Threads cfg κ σ} {e : ThreadEvent κ σ}

/-- A connection keeps its client id. -/
theorem step_named (h : s.step e = some s') {k : κ} (halloc : ∀ fd, e ≠ .alloc k fd)
    (hpc : ¬ (s.conn k).Nameless) : ¬ (s'.conn k).Nameless ∧
      (s'.broker.clients k).clientId = (s.broker.clients k).clientId := by
  by_cases hk : e.slot = some k
  · have hown := own_cases h hk
    generalize s'.broker.clients k = c, s'.conn k = pc at hown ⊢
    cases hown with
    | alloc fd => exact absurd rfl (halloc fd)
    | notConnect env pkt hwait | connect env pkt conn hwait | reject env pkt code c hwait =>
        rw [hwait] at hpc
        exact absurd trivial hpc
    | leave => exact ⟨id, rfl⟩
    | packet env pkt c pc hrecv hstays hpc' =>
        refine ⟨?_, hstays.clientId⟩
        rcases hpc' with rfl | rfl | ⟨pub, ack, rfl⟩ <;> exact id
    | tick env c hrecv hstays => exact ⟨id, hstays.clientId⟩
    | publish env pub ack c hpub hstays => exact ⟨id, hstays.clientId⟩
    | will env c hwait hwill hstays => exact ⟨id, hstays.clientId⟩
    | next env h' pc hnext =>
        refine ⟨connStep_named hnext hpc, ?_⟩
        rcases connStep_stays hnext with hstays | ⟨conn, hat, -⟩ | ⟨conn, -, hc⟩ | ⟨-, hc⟩
        · exact hstays.clientId
        · rw [hat] at hpc
          exact absurd trivial hpc
        · rw [hc]
          rfl
        · rw [hc]
  · have hother := step_untouched h hk
    exact ⟨hother.conn ▸ hpc, hother.client.clientId⟩

/-- What a step makes of a connection's table of inbound QoS 2 ids. -/
inductive Qos2Case (s : Threads cfg κ σ) (k : κ) (e : ThreadEvent κ σ) : Qos2Table → Prop where
  | same : Qos2Case s k e (s.broker.clients k).qos2In
  | release (env : Env κ) (pkt : MqttPacket) (id : UInt16) (he : e = .packet k env pkt)
      (hstate : (s.broker.clients k).state = .connected) (hid : releasedId pkt = some id) :
      Qos2Case s k e ((s.broker.clients k).qos2In.release id)
  | store (env : Env κ) (pkt : MqttPacket) (b : Broker cfg κ) (pub : MqttPublish)
      (ack : Option Bytes) (i : Fin CLIENT_QOS2_IN_MAX) (he : e = .packet k env pkt)
      (hbegin : publishBegin env s.broker k pkt = some (b, pub, ack)) (hqos : pub.qos = 2)
      (hfree : (s.broker.clients k).qos2In.slot pub.packetId = .free i) :
      Qos2Case s k e ((s.broker.clients k).qos2In.store pub.packetId i)

theorem qos2_cases (hl : s.broker.table.IsLinked) (h : s.step e = some s') {k : κ}
    (halloc : ∀ fd, e ≠ .alloc k fd) : Qos2Case s k e (s'.broker.clients k).qos2In := by
  have hself : ∀ f : Client → Client, (s.broker.updateClient k f).clients k =
      f (s.broker.clients k) := fun _ ↦ Function.update_self _ _ _
  have hsame : ∀ {q : Qos2Table}, q = (s.broker.clients k).qos2In → Qos2Case s k e q :=
    fun hq ↦ hq ▸ .same
  have hbegin : ∀ {a : Threads cfg κ σ} {who : κ ⊕ σ} {env : Env κ} {pub : MqttPublish},
      a.broker = s.broker → a.begin who env pub = some s' →
      Qos2Case s k e (s'.broker.clients k).qos2In := by
    intro a who env pub ha hb
    obtain ⟨r, hlocked, rfl⟩ := Option.map_eq_some_iff.mp hb
    rw [ha] at hlocked
    exact hsame (sentTo_rule.locked hlocked k).qos2In
  by_cases hk : e.slot = some k
  · cases step_cases h with
    | alloc j fd => cases hk; exact absurd rfl (halloc fd)
    | notConnect | connect | leave => exact .same
    | reject j env pkt code hpc hcheck =>
        cases hk
        refine hsame ?_
        rw [goTo_broker, handleConnect, hcheck, Broker.close_qos2In, Handled.reply_qos2In]
    | late j env =>
        cases hk
        exact hsame (by rw [goTo_broker, hself])
    | publishPacket j env pkt b pub ack hpc hb =>
        cases hk
        rcases (publishBegin_qos2In hb).2 with ⟨h2, i, hslot, hq⟩ | ⟨-, hq⟩
        · rw [goTo_broker, hq]
          exact .store env pkt b pub ack i rfl hb h2 hslot
        · exact hsame hq
    | packet j env pkt h' hpc hb hrun hstate =>
        cases hk
        rw [goTo_broker, dispatch_qos2In hl hb hrun]
        cases hid : releasedId pkt with
        | none => exact .same
        | some id =>
            refine .release env pkt id rfl (hstate ?_) hid
            unfold releasedId at hid
            split_ifs at hid with hrel
            exact hrel.1
    | tick j env =>
        cases hk
        rw [goTo_broker, hself]
        exact hsame (inflightRetry_qos2In _ env.now (env.sendOk k))
    | next j env h' pc hjob hnext => cases hk; exact hsame (connStep_qos2In hnext)
    | publish j env pub ack s' hpc hb => exact hbegin (goTo_broker s j s.broker (.reply ack)) hb
    | will j env s' hpc hwill hb => exact hbegin (goTo_broker s j s.broker .clearWill) hb
    | foreign | send | offline => cases hk
  · exact hsame (step_untouched h hk).client.qos2In

end Threads

/-! ## Messages over several connections -/

/-- A QoS 2 message of a client: the PUBLISH packets with one packet id between
which no PUBREL for it is processed and no clean session begins. -/
structure Qos2Message where
  clientId : CStr
  packetId : UInt16
  epoch : ℕ
  deriving DecidableEq

/-- What an observer notes about the QoS 2 messages of persistent clients. -/
structure Qos2Log (κ : Type) where
  /-- how often a packet id of a client has become free for a new message -/
  epoch : CStr → UInt16 → ℕ := fun _ _ ↦ 0
  /-- the epoch of the PUBLISH that a slot's thread has received last -/
  arrived : κ → ℕ := fun _ ↦ 0
  /-- the connection, by its slot and number, that went on to `topic_publish` -/
  takenBy : Qos2Message → Option (κ × ℕ) := fun _ ↦ none
  /-- how often `topic_publish` has been called with a message -/
  handed : Qos2Message → ℕ := fun _ ↦ 0

namespace Qos2Log

/-- The message that a PUBLISH on connection `c` carries now. -/
def message (n : Qos2Log κ) (c : Client) (pub : MqttPublish) : Qos2Message :=
  ⟨c.clientId, pub.packetId, n.epoch c.clientId pub.packetId⟩

/-- The message that the thread of slot `k` has received. -/
def received (n : Qos2Log κ) (k : κ) (c : Client) (pub : MqttPublish) : Qos2Message :=
  ⟨c.clientId, pub.packetId, n.arrived k⟩

def release (n : Qos2Log κ) (clientId : CStr) (id : UInt16) : Qos2Log κ :=
  { n with epoch := fun x p ↦ if x = clientId ∧ p = id then n.epoch x p + 1 else n.epoch x p }

def forget (n : Qos2Log κ) (clientId : CStr) : Qos2Log κ :=
  { n with epoch := fun x p ↦ if x = clientId then n.epoch x p + 1 else n.epoch x p }

variable [DecidableEq κ]

def take (n : Qos2Log κ) (k : κ) (gen : ℕ) (m : Qos2Message) : Qos2Log κ :=
  { n with
    arrived := Function.update n.arrived k m.epoch
    takenBy := Function.update n.takenBy m (some (k, gen)) }

def hand (n : Qos2Log κ) (m : Qos2Message) : Qos2Log κ :=
  { n with handed := Function.update n.handed m (n.handed m + 1) }

/-- What is noted at a step. -/
def note (s : Threads cfg κ σ) : ThreadEvent κ σ → Qos2Log κ → Qos2Log κ
  | .packet k env pkt, n =>
      match releasedId pkt with
      | some id =>
          if (s.broker.clients k).state = .connected then n.release (s.broker.clients k).clientId id
          else n
      | none =>
          match publishBegin env s.broker k pkt with
          | some (_, pub, _) =>
              if (s.broker.clients k).state = .connected ∧ pub.qos = 2 ∧
                  (s.broker.clients k).cleanSession = false then
                n.take k (s.gen k) (n.message (s.broker.clients k) pub)
              else n
          | none => n
  | .publish k _, n =>
      match s.conn k with
      | .publish pub _ =>
          if pub.qos = 2 ∧ (s.broker.clients k).cleanSession = false then
            n.hand (n.received k (s.broker.clients k) pub)
          else n
      | _ => n
  | .next k _, n =>
      match s.conn k with
      | .openSession conn =>
          if conn.cleanSession then n.forget (s.broker.clients k).clientId else n
      | _ => n
  | _, n => n

end Qos2Log

namespace Threads

variable [DecidableEq κ] [DecidableEq σ]

/-- The threads with an observer of the QoS 2 messages. -/
def qos2Observed (cfg : Config) (κ σ : Type) [DecidableEq κ] [DecidableEq σ] :
    Observer.System (Threads cfg κ σ) (ThreadEvent κ σ) (Qos2Log κ) where
  step := step
  note s e n := n.note s e

/-- The states of the runs whose steps satisfy `C`, with the observer's notes. -/
def Qos2Observed [Inhabited κ] (C : Threads cfg κ σ → Qos2Log κ → ThreadEvent κ σ → Prop) :
    Threads cfg κ σ → Qos2Log κ → Prop :=
  Observer.Reach (qos2Observed cfg κ σ) C (init cfg κ σ) {}

/-- If another connection has taken the message of a PUBLISH, the table of the
connection is full or has its packet id. -/
def FullFor (s : Threads cfg κ σ) (n : Qos2Log κ) (k : κ) (pub : MqttPublish) : Prop :=
  pub.qos = 2 → (s.broker.clients k).cleanSession = false →
    (s.broker.clients k).state = .connected →
    n.takenBy (n.message (s.broker.clients k) pub) ≠ none →
    n.takenBy (n.message (s.broker.clients k) pub) ≠ some (k, s.gen k) →
    (∀ i, ((s.broker.clients k).qos2In i).inUse = true) ∨
      (s.broker.clients k).qos2In.Holds pub.packetId

instance (s : Threads cfg κ σ) (n : Qos2Log κ) (k : κ) : DecidablePred (s.FullFor n k) :=
  fun _ ↦ inferInstanceAs (Decidable (_ → _))

/-- A PUBLISH whose message another connection has taken comes where the table of
the connection is full or has its packet id. -/
def RetransmitsToFull (s : Threads cfg κ σ) (n : Qos2Log κ) : ThreadEvent κ σ → Prop
  | .packet k _ pkt => ∀ pub ∈ acceptedPublish pkt, s.FullFor n k pub
  | _ => True

instance (s : Threads cfg κ σ) (n : Qos2Log κ) : DecidablePred (s.RetransmitsToFull n)
  | .packet k _ pkt => inferInstanceAs (Decidable (∀ pub ∈ acceptedPublish pkt, s.FullFor n k pub))
  | .alloc _ _ | .connect _ _ _ | .tick _ _ | .leave _ | .next _ _ | .publish _ _ | .foreign _ _ _
  | .send _ _ | .offline _ => .isTrue trivial

variable {s s' : Threads cfg κ σ} {n : Qos2Log κ} {e : ThreadEvent κ σ}

theorem step_gen (h : s.step e = some s') (halloc : ∀ k fd, e ≠ .alloc k fd) : s'.gen = s.gen := by
  cases step_cases h with
  | alloc k fd => exact absurd rfl (halloc k fd)
  | publish k env pub ack s' hpc hb => exact (begin_frame hb).2
  | will k env s' hpc hwill hb => exact (begin_frame hb).2
  | foreign t env pub s' hjob hb => exact (begin_frame hb).2
  | _ => rfl

/-- A thread is about to call `topic_publish` in `handle_publish` if it was before
or has just received the PUBLISH. -/
theorem publish_conn_cases (h : s.step e = some s') {k : κ} {pub : MqttPublish}
    {ack : Option Bytes} (hconn : s'.conn k = .publish pub ack) :
    e.slot ≠ some k ∧ s.conn k = .publish pub ack ∨
      ∃ env pkt b, e = .packet k env pkt ∧
        publishBegin env s.broker k pkt = some (b, pub, ack) ∧
        (s.broker.clients k).state = .connected ∧
        (s.broker.clients k).Stays { s'.broker.clients k with
          lastSeenMs := (s.broker.clients k).lastSeenMs } := by
  by_cases hk : e.slot = some k
  · right
    cases step_cases h with
    | alloc j fd => cases hk; simp [goTo] at hconn
    | notConnect j env pkt | connect j env pkt | leave j | late j env pkt | tick j env
    | packet j env pkt | reject j env pkt =>
        cases hk
        rw [goTo_conn] at hconn
        cases hconn
    | publishPacket j env pkt b pub' ack' hpc hb hstate =>
        cases hk
        rw [goTo_conn] at hconn
        cases hconn
        have hstays := publishBegin_stays hb
        exact ⟨env, pkt, b, rfl, hb, hstate, hstays.clientId, hstays.cleanSession,
          hstays.keepalive, rfl, hstays.will, hstays.hasWill⟩
    | next j env h' pc hjob hnext =>
        cases hk
        rw [goTo_conn] at hconn
        have hne := connStep_pc_ne_publish hnext pub ack
        exact absurd hconn hne
    | publish j env pub' ack' s' hpc hb =>
        cases hk
        rw [(begin_frame hb).1, goTo_conn] at hconn
        cases hconn
    | will j env s' hpc hwill hb =>
        cases hk
        rw [(begin_frame hb).1, goTo_conn] at hconn
        cases hconn
    | foreign | send | offline => cases hk
  · exact Or.inl ⟨hk, (step_untouched h hk).conn ▸ hconn⟩

/-- Each message is handed over at most once, by the connection that took it. -/
structure TakenOnce (s : Threads cfg κ σ) (n : Qos2Log κ) : Prop where
  once : ∀ m, n.handed m ≤ 1
  taken : ∀ m, n.takenBy m = none → n.handed m = 0
  pending : ∀ k pub ack, s.conn k = .publish pub ack → pub.qos = 2 →
    (s.broker.clients k).cleanSession = false →
    n.takenBy (n.received k (s.broker.clients k) pub) = some (k, s.gen k) ∧
      n.handed (n.received k (s.broker.clients k) pub) = 0
  held : ∀ m k, n.takenBy m = some (k, s.gen k) → ¬ (s.conn k).Nameless ∧
    (s.broker.clients k).clientId = m.clientId ∧
    (m.epoch = n.epoch m.clientId m.packetId → (s.broker.clients k).qos2In.Holds m.packetId)
  past : ∀ m k g, n.takenBy m = some (k, g) →
    g ≤ s.gen k ∧ m.epoch ≤ n.epoch m.clientId m.packetId

omit [DecidableEq σ] in
theorem epoch_le_note (s : Threads cfg κ σ) (e : ThreadEvent κ σ) (n : Qos2Log κ) (x : CStr)
    (p : UInt16) : n.epoch x p ≤ (n.note s e).epoch x p := by
  cases e with
  | packet k env pkt =>
      simp only [Qos2Log.note]
      split
      · split_ifs
        · simp only [Qos2Log.release]
          split_ifs <;> omega
        · exact le_rfl
      · split
        · split_ifs <;> exact le_rfl
        · exact le_rfl
  | publish k env =>
      simp only [Qos2Log.note]
      split
      · split_ifs <;> exact le_rfl
      · exact le_rfl
  | next k env =>
      simp only [Qos2Log.note]
      split
      · split_ifs
        · simp only [Qos2Log.forget]
          split_ifs <;> omega
        · exact le_rfl
      · exact le_rfl
  | _ => exact le_rfl

/-- An id stays in the table of a connection until a PUBREL lets a new message have it. -/
theorem holds_step (hl : s.broker.table.IsLinked) (h : s.step e = some s') {k : κ}
    (halloc : ∀ fd, e ≠ .alloc k fd) {id : UInt16} (hid : (s.broker.clients k).qos2In.Holds id) :
    (s'.broker.clients k).qos2In.Holds id ∨
      n.epoch (s.broker.clients k).clientId id <
        (n.note s e).epoch (s.broker.clients k).clientId id := by
  have hcase := qos2_cases hl h halloc
  generalize (s'.broker.clients k).qos2In = q at hcase ⊢
  cases hcase with
  | same => exact Or.inl hid
  | release env pkt id' he hstate hrel =>
      by_cases hne : id = id'
      · subst hne he
        right
        simp [Qos2Log.note, hrel, hstate, Qos2Log.release]
      · exact Or.inl (Qos2Table.holds_release_of_ne hne hid)
  | store env pkt b pub ack i he hbegin hqos hfree =>
      have hunused : ((s.broker.clients k).qos2In i).inUse = false := by
        rcases Qos2Table.slot_cases (s.broker.clients k).qos2In pub.packetId with
          ⟨hslot, -⟩ | ⟨j, hslot, hj, -⟩ | ⟨hslot, -⟩
        · rw [hfree] at hslot
          cases hslot
        · rw [hfree] at hslot
          cases hslot
          exact hj
        · rw [hfree] at hslot
          cases hslot
      exact Or.inl ((Qos2Table.holds_store hunused id).mpr (Or.inr hid))

namespace TakenOnce

/-- A step that takes no message and hands none over. -/
theorem keep (hs : s.TakenOnce n) (hl : s.broker.table.IsLinked) (h : s.step e = some s')
    (halloc : ∀ k fd, e ≠ .alloc k fd) (htaken : (n.note s e).takenBy = n.takenBy)
    (hhanded : (n.note s e).handed = n.handed) (harrived : (n.note s e).arrived = n.arrived)
    (hnew : ∀ k env pkt b pub ack, e = .packet k env pkt →
      publishBegin env s.broker k pkt = some (b, pub, ack) →
      (s.broker.clients k).state = .connected → pub.qos = 2 →
      (s.broker.clients k).cleanSession = true) : s'.TakenOnce (n.note s e) where
  once m := by
    rw [hhanded]
    exact hs.once m
  taken m hm := by
    rw [htaken] at hm
    rw [hhanded]
    exact hs.taken m hm
  pending k pub ack hconn hqos hclean := by
    rcases publish_conn_cases h hconn with ⟨hk, hold⟩ | ⟨env, pkt, b, he, hbegin, hstate, hstays⟩
    · have hother := (step_untouched h hk).client
      simp only [Qos2Log.received, htaken, hhanded, harrived, hother.clientId, step_gen h halloc]
      exact hs.pending k pub ack hold hqos (hother.cleanSession ▸ hclean)
    · have hcleaned := hnew k env pkt b pub ack he hbegin hstate hqos
      rw [← hstays.cleanSession, hclean] at hcleaned
      cases hcleaned
  held m k hm := by
    rw [htaken, step_gen h halloc] at hm
    obtain ⟨hnamed, hid, hheld⟩ := hs.held m k hm
    obtain ⟨hnamed', hid'⟩ := step_named h (halloc k) hnamed
    refine ⟨hnamed', hid'.trans hid, fun hepoch ↦ ?_⟩
    have hle := epoch_le_note s e n m.clientId m.packetId
    have hpast := (hs.past m k _ hm).2
    have hsame : m.epoch = n.epoch m.clientId m.packetId := by omega
    rcases holds_step (n := n) hl h (halloc k) (hheld hsame) with hkept | hlt
    · exact hkept
    · rw [hid] at hlt
      omega
  past m k g hm := by
    rw [htaken] at hm
    obtain ⟨hg, hepoch⟩ := hs.past m k g hm
    rw [step_gen h halloc]
    exact ⟨hg, hepoch.trans (epoch_le_note s e n m.clientId m.packetId)⟩

/-- A slot is allocated for a new connection. -/
theorem alloc (hs : s.TakenOnce n) {k : κ} {fd : ℤ} (h : s.step (.alloc k fd) = some s') :
    s'.TakenOnce n := by
  cases step_cases h with
  | alloc _ _ hfree =>
      refine ⟨hs.once, hs.taken, fun j pub ack hconn hqos hclean ↦ ?_, fun m j hm ↦ ?_,
        fun m j g hm ↦ ?_⟩
      · have hj : j ≠ k := by
          rintro rfl
          simp [goTo] at hconn
        have hconn' : s.conn j = .publish pub ack := by
          rw [← hconn]
          exact (Function.update_of_ne hj _ _).symm
        have hclient : (clientAlloc s.broker k fd).clients j = s.broker.clients j :=
          Function.update_of_ne hj _ _
        simp only [goTo_broker, hclient] at hclean ⊢
        have hpending := hs.pending j pub ack hconn' hqos hclean
        simpa [hj] using hpending
      · by_cases hj : j = k
        · subst hj
          simp only [Function.update_self] at hm
          have hpast := (hs.past m j _ hm).1
          omega
        · have hclient : (clientAlloc s.broker k fd).clients j = s.broker.clients j :=
            Function.update_of_ne hj _ _
          simp only [Function.update_of_ne hj] at hm
          have hconn : (s.goTo k (clientAlloc s.broker k fd) .waiting).conn j = s.conn j :=
            Function.update_of_ne hj _ _
          simp only [goTo_broker, hclient, hconn]
          exact hs.held m j hm
      · obtain ⟨hg, hepoch⟩ := hs.past m j g hm
        refine ⟨hg.trans ?_, hepoch⟩
        by_cases hj : j = k
        · subst hj
          simp
        · simp [hj]

/-- A thread goes on to `topic_publish` with a message that no connection has taken. -/
theorem take (hs : s.TakenOnce n) (hl : s.broker.table.IsLinked) {k : κ} {env : Env κ}
    {pkt : MqttPacket} {b : Broker cfg κ} {pub : MqttPublish} {ack : Option Bytes}
    (h : s.step (.packet k env pkt) = some s')
    (hbegin : publishBegin env s.broker k pkt = some (b, pub, ack))
    (hstate : (s.broker.clients k).state = .connected) (hqos : pub.qos = 2)
    (hnote : n.note s (.packet k env pkt) =
      n.take k (s.gen k) (n.message (s.broker.clients k) pub))
    (hnew : n.takenBy (n.message (s.broker.clients k) pub) = none) :
    s'.TakenOnce (n.note s (.packet k env pkt)) := by
  have halloc : ∀ j fd, ThreadEvent.packet (σ := σ) k env pkt ≠ .alloc j fd := by simp
  have hgen := step_gen h halloc
  rw [hnote]
  generalize hm : n.message (s.broker.clients k) pub = m at hnew ⊢
  have hother : ∀ {m' : Qos2Message}, n.takenBy m' ≠ none → m' ≠ m := by
    rintro m' hm' rfl
    exact hm' hnew
  have hown : s'.conn k = .publish pub ack ∧ (s'.broker.clients k).clientId = m.clientId ∧
      (s'.broker.clients k).qos2In.Holds m.packetId := by
    have hb : s' = s.goTo k b (.publish pub ack) := by
      cases step_cases h with
      | late _ _ _ _ _ hdown => exact absurd hstate hdown
      | publishPacket _ _ _ b' pub' ack' _ hbegin' =>
          rw [hbegin] at hbegin'
          cases hbegin'
          rfl
      | packet _ _ _ h' _ hbegin' => rw [hbegin] at hbegin'; cases hbegin'
    subst hb hm
    refine ⟨goTo_conn s k b _, (publishBegin_stays hbegin).clientId, ?_⟩
    rcases (publishBegin_qos2In hbegin).2 with ⟨-, i, -, hq⟩ | ⟨hne, -⟩
    · rw [goTo_broker, hq]
      exact ⟨i, by simp [Qos2Table.store, Qos2Log.message]⟩
    · exact absurd hqos hne
  refine ⟨hs.once, fun m' hm' ↦ ?_, fun j pub' ack' hconn hqos' hclean ↦ ?_, fun m' j hm' ↦ ?_,
    fun m' j g hm' ↦ ?_⟩
  · by_cases hmm : m' = m
    · simp [Qos2Log.take, hmm] at hm'
    · simp only [Qos2Log.take, Function.update_of_ne hmm] at hm'
      exact hs.taken m' hm'
  · by_cases hj : j = k
    · subst hj
      rw [hown.1] at hconn
      cases hconn
      have hrec : (n.take j (s.gen j) m).received j (s'.broker.clients j) pub = m := by
        obtain ⟨x, p, i⟩ := m
        cases hm
        simp [Qos2Log.received, Qos2Log.take, hown.2.1]
      rw [hrec, hgen]
      exact ⟨by simp [Qos2Log.take], hs.taken m hnew⟩
    · have huntouched := step_untouched h (k := j) (by simpa [ThreadEvent.slot] using Ne.symm hj)
      have hrec : (n.take k (s.gen k) m).received j (s'.broker.clients j) pub' =
          n.received j (s.broker.clients j) pub' := by
        simp [Qos2Log.received, Qos2Log.take, hj, huntouched.client.clientId]
      obtain ⟨htaken, hhanded⟩ := hs.pending j pub' ack' (huntouched.conn ▸ hconn) hqos'
        (huntouched.client.cleanSession ▸ hclean)
      rw [hrec, hgen]
      refine ⟨?_, hhanded⟩
      rw [← htaken]
      exact Function.update_of_ne (hother (by simp [htaken])) _ _
  · by_cases hmm : m' = m
    · subst hmm
      simp only [Qos2Log.take, Function.update_self, Option.some.injEq, Prod.mk.injEq] at hm'
      obtain ⟨rfl, -⟩ := hm'
      exact ⟨by simp [hown.1, ConnPc.Nameless], hown.2.1, fun _ ↦ hown.2.2⟩
    · simp only [Qos2Log.take, Function.update_of_ne hmm, hgen] at hm'
      obtain ⟨hnamed, hid, hheld⟩ := hs.held m' j hm'
      obtain ⟨hnamed', hid'⟩ := step_named h (halloc j) hnamed
      refine ⟨hnamed', hid'.trans hid, fun hepoch ↦ ?_⟩
      rcases holds_step (n := n) hl h (halloc j) (hheld hepoch) with hkept | hlt
      · exact hkept
      · rw [hnote] at hlt
        exact absurd hlt (lt_irrefl _)
  · by_cases hmm : m' = m
    · subst hmm
      simp only [Qos2Log.take, Function.update_self, Option.some.injEq, Prod.mk.injEq] at hm'
      obtain ⟨rfl, rfl⟩ := hm'
      refine ⟨hgen.ge k, ?_⟩
      subst hm
      exact le_rfl
    · simp only [Qos2Log.take, Function.update_of_ne hmm] at hm'
      rw [hgen]
      exact hs.past m' j g hm'

/-- A thread calls `topic_publish` with the message it has taken. -/
theorem hand (hs : s.TakenOnce n) (hl : s.broker.table.IsLinked) {k : κ} {env : Env κ}
    {pub : MqttPublish} {ack : Option Bytes} (h : s.step (.publish k env) = some s')
    (hconn : s.conn k = .publish pub ack) (hqos : pub.qos = 2)
    (hclean : (s.broker.clients k).cleanSession = false)
    (hnote : n.note s (.publish k env) = n.hand (n.received k (s.broker.clients k) pub)) :
    s'.TakenOnce (n.note s (.publish k env)) := by
  have halloc : ∀ j fd, ThreadEvent.publish (σ := σ) k env ≠ .alloc j fd := by simp
  have hgen := step_gen h halloc
  obtain ⟨htaken, hhanded⟩ := hs.pending k pub ack hconn hqos hclean
  rw [hnote]
  generalize n.received k (s.broker.clients k) pub = m at hnote htaken hhanded ⊢
  refine ⟨fun m' ↦ ?_, fun m' hm' ↦ ?_, fun j pub' ack' hconn' hqos' hclean' ↦ ?_, fun m' j hm' ↦ ?_,
    fun m' j g hm' ↦ hgen ▸ hs.past m' j g hm'⟩
  · by_cases hmm : m' = m
    · subst hmm
      simp [Qos2Log.hand, hhanded]
    · simpa [Qos2Log.hand, hmm] using hs.once m'
  · have hmm : m' ≠ m := by
      rintro rfl
      rw [show n.takenBy m' = none from hm'] at htaken
      cases htaken
    simpa [Qos2Log.hand, hmm] using hs.taken m' hm'
  · rcases publish_conn_cases h hconn' with ⟨hj, hold⟩ | ⟨env', pkt, b, he, -⟩
    · have huntouched := step_untouched h hj
      have hrec : (n.hand m).received j (s'.broker.clients j) pub' =
          n.received j (s.broker.clients j) pub' := by
        simp [Qos2Log.received, Qos2Log.hand, huntouched.client.clientId]
      obtain ⟨htaken', hhanded'⟩ := hs.pending j pub' ack' hold hqos'
        (huntouched.client.cleanSession ▸ hclean')
      have hmm : n.received j (s.broker.clients j) pub' ≠ m := by
        intro hmm
        rw [hmm, htaken] at htaken'
        simp only [Option.some.injEq, Prod.mk.injEq] at htaken'
        exact hj (congrArg some htaken'.1)
      rw [hrec, hgen]
      exact ⟨htaken', by simpa [Qos2Log.hand, hmm] using hhanded'⟩
    · cases he
  · rw [hgen] at hm'
    obtain ⟨hnamed, hid, hheld⟩ := hs.held m' j hm'
    obtain ⟨hnamed', hid'⟩ := step_named h (halloc j) hnamed
    refine ⟨hnamed', hid'.trans hid, fun hepoch ↦ ?_⟩
    rcases holds_step (n := n) hl h (halloc j) (hheld hepoch) with hkept | hlt
    · exact hkept
    · rw [hnote] at hlt
      exact absurd hlt (lt_irrefl _)

theorem step (hs : s.TakenOnce n) (hl : s.broker.table.IsLinked) (hfull : s.RetransmitsToFull n e)
    (h : s.step e = some s') : s'.TakenOnce (n.note s e) := by
  cases e with
  | alloc k fd => exact hs.alloc h
  | packet k env pkt =>
      cases hbegin : publishBegin env s.broker k pkt with
      | none =>
          refine hs.keep hl h (by simp) ?_ ?_ ?_ fun j env' pkt' b pub ack he hb ↦ ?_
          iterate 3
            · simp only [Qos2Log.note, hbegin]
              split
              · split_ifs <;> rfl
              · rfl
          cases he
          rw [hbegin] at hb
          cases hb
      | some r =>
          obtain ⟨b, pub, ack⟩ := r
          obtain ⟨hacc, hq⟩ := publishBegin_qos2In hbegin
          have hrel := releasedId_of_accepted hacc
          by_cases htakes : (s.broker.clients k).state = .connected ∧ pub.qos = 2 ∧
              (s.broker.clients k).cleanSession = false
          · have hnote : n.note s (.packet k env pkt) =
                n.take k (s.gen k) (n.message (s.broker.clients k) pub) := by
              simp only [Qos2Log.note, hrel, hbegin, if_pos htakes]
            obtain ⟨hstate, hqos, hclean⟩ := htakes
            refine hs.take hl h hbegin hstate hqos hnote (not_not.mp fun htaken ↦ ?_)
            obtain ⟨i, hslot⟩ : ∃ i, (s.broker.clients k).qos2In.slot pub.packetId = .free i := by
              rcases hq with ⟨-, i, hslot, -⟩ | ⟨hne, -⟩
              · exact ⟨i, hslot⟩
              · exact absurd hqos hne
            rcases Qos2Table.slot_cases (s.broker.clients k).qos2In pub.packetId with
              ⟨hdup, -⟩ | ⟨j, -, hunused, hnot⟩ | ⟨hno, -⟩
            · rw [hslot] at hdup
              cases hdup
            · -- the connection has not taken the message itself: it would have the id
              have hforeign : n.takenBy (n.message (s.broker.clients k) pub) ≠ some (k, s.gen k) :=
                fun hown ↦ hnot ((hs.held _ k hown).2.2 rfl)
              rcases hfull pub hacc hqos hclean hstate htaken hforeign with hall | hholds
              · simp [hall j] at hunused
              · exact hnot hholds
            · rw [hslot] at hno
              cases hno
          · have hnote : n.note s (.packet k env pkt) = n := by
              simp only [Qos2Log.note, hrel, hbegin, if_neg htakes]
            refine hs.keep hl h (by simp) (by rw [hnote]) (by rw [hnote]) (by rw [hnote])
              fun j env' pkt' b' pub' ack' he hb hstate hqos ↦ ?_
            cases he
            rw [hbegin] at hb
            cases hb
            simpa using fun hclean ↦ htakes ⟨hstate, hqos, hclean⟩
  | publish k env =>
      by_cases hhands : ∃ pub ack, s.conn k = .publish pub ack ∧ pub.qos = 2 ∧
          (s.broker.clients k).cleanSession = false
      · obtain ⟨pub, ack, hconn, hqos, hclean⟩ := hhands
        have hnote : n.note s (.publish k env) = n.hand (n.received k (s.broker.clients k) pub) := by
          simp [Qos2Log.note, hconn, hqos, hclean]
        exact hs.hand hl h hconn hqos hclean hnote
      · have hnote : n.note s (.publish k env) = n := by
          simp only [Qos2Log.note]
          split
          · rename_i pub ack hconn
            exact if_neg fun hq ↦ hhands ⟨pub, ack, hconn, hq⟩
          · rfl
        exact hs.keep hl h (by simp) (by rw [hnote]) (by rw [hnote]) (by rw [hnote])
          fun _ _ _ _ _ _ he ↦ by cases he
  | next k env =>
      refine hs.keep hl h (by simp) ?_ ?_ ?_ fun _ _ _ _ _ _ he ↦ by cases he
      iterate 3
        · simp only [Qos2Log.note]
          split
          · split_ifs <;> rfl
          · rfl
  | _ => exact hs.keep hl h (by simp) rfl rfl rfl fun _ _ _ _ _ _ he ↦ by cases he

end TakenOnce

theorem reach_of_qos2Observed [Inhabited κ] {C : Threads cfg κ σ → Qos2Log κ → ThreadEvent κ σ → Prop}
    (h : Qos2Observed C s n) : ReachBy (fun _ _ ↦ True) s := by
  induction h with
  | start => exact .init
  | step _ _ hstep ih => exact ih.step trivial hstep

/-- The thread of a new connection goes on to `topic_publish` with a message that
another connection has taken. -/
structure TakenAgain (s : Threads cfg κ σ) (n : Qos2Log κ) (k : κ) (s' : Threads cfg κ σ)
    (pub : MqttPublish) : Prop where
  conn : ∃ ack, s'.conn k = .publish pub ack
  qos : pub.qos = 2
  persistent : (s.broker.clients k).cleanSession = false
  taken : ∃ other, n.takenBy (n.message (s.broker.clients k) pub) = some other ∧
    other ≠ (k, s.gen k)

/-- Where there is room for the packet id, the message is taken again. -/
theorem takenAgain_of_room (h : s.step e = some s') (hroom : ¬ s.RetransmitsToFull n e) :
    ∃ k env pkt pub, e = .packet k env pkt ∧ acceptedPublish pkt = some pub ∧
      s.TakenAgain n k s' pub := by
  cases e with
  | packet k env pkt =>
      simp only [RetransmitsToFull, FullFor, not_forall] at hroom
      obtain ⟨pub, hacc, hqos, hclean, hstate, htaken, hforeign, hroom⟩ := hroom
      obtain ⟨other, hother⟩ := Option.ne_none_iff_exists'.mp htaken
      refine ⟨k, env, pkt, pub, rfl, hacc, ?_, hqos, hclean, other, hother, ?_⟩
      · cases step_cases h with
        | late _ _ _ _ _ hdown => exact absurd hstate hdown
        | publishPacket _ _ _ b pub' ack _ hbegin =>
            obtain rfl := Option.some.inj (hacc.symm.trans (publishBegin_qos2In hbegin).1)
            exact ⟨ack, goTo_conn s k b _⟩
        | packet _ _ _ h' _ hbegin =>
            exact absurd (Qos2Table.no_room (publishBegin_none hacc hbegin).2) hroom
      · rintro rfl
        exact hforeign hother
  | _ => exact absurd trivial hroom

/-- In every run in which a PUBLISH of a message that another connection has taken
comes to a full table or to one that has its id, every QoS 2 message of a
persistent client is handed to `topic_publish` at most once; where it comes to a
table with room, the message is taken again. -/
theorem handed_once_of_retransmitsToFull [Inhabited κ] (h : Qos2Observed RetransmitsToFull s n) :
    (∀ m, n.handed m ≤ 1) ∧ ∀ e s', s.step e = some s' → ¬ s.RetransmitsToFull n e →
      ∃ k env pkt pub, e = .packet k env pkt ∧ acceptedPublish pkt = some pub ∧
        s.TakenAgain n k s' pub := by
  have hinv : s.TakenOnce n := by
    induction h with
    | start =>
        exact ⟨fun _ ↦ Nat.zero_le 1, fun _ _ ↦ rfl, fun _ _ _ hconn ↦ (nomatch hconn),
          fun _ _ hm ↦ (nomatch hm), fun _ _ _ hm ↦ (nomatch hm)⟩
    | step h hfull hstep ih =>
        exact ih.step (isLinked_of_reach (reach_of_qos2Observed h)) hfull hstep
  exact ⟨hinv.once, fun e s' hstep hroom ↦ takenAgain_of_room hstep hroom⟩

end Threads

namespace Sample

open Threads

/-- QoS 2 PUBLISH to `t` with a packet id. -/
def qos2Pkt (id : UInt8) : MqttPacket := ⟨0x34, 6, [0, 1, 0x74, 0, id, 0x78]⟩

/-- A PUBLISH is received, published and answered. -/
def qos2Round (id : UInt8) : List (ThreadEvent ℕ Unit) :=
  [.packet 0 env (qos2Pkt id), .publish 0 env, .offline (.inl 0), .next 0 env, .next 0 env]

/-- Client `a` connects, and its thread takes `n` steps. -/
def connectRun (fd : ℤ) (n : ℕ) : List (ThreadEvent ℕ Unit) :=
  .alloc 0 fd :: .connect 0 env connectPkt :: List.replicate n (.next 0 env)

/-- Client `a` publishes with id 1, loses its connection and connects again. -/
def reconnectRun : List (ThreadEvent ℕ Unit) :=
  connectRun 5 6 ++ qos2Round 1 ++ .leave 0 :: List.replicate 13 (.next 0 env) ++ connectRun 6 9

/-- Four more messages fill the table of the new connection, and the first one
comes again. -/
def fullRun : List (ThreadEvent ℕ Unit) :=
  reconnectRun ++ qos2Round 2 ++ qos2Round 3 ++ qos2Round 4 ++ qos2Round 5 ++
    [.packet 0 env (qos2Pkt 1)]

/-- The run's last state and the notes after it. -/
def qos2End (es : List (ThreadEvent ℕ Unit)) : Option (Threads Config.posix ℕ Unit × Qos2Log ℕ) :=
  Observer.run (qos2Observed Config.posix ℕ Unit) (init _ _ _, {}) es

theorem qos2End_isSome : (qos2End fullRun).isSome = true ∧
    (qos2End (reconnectRun ++ qos2Round 1)).isSome = true := by decide +kernel

theorem fullRun_checked :
    Observer.checked (qos2Observed Config.posix ℕ Unit) RetransmitsToFull (init _ _ _) {} fullRun =
      true := by decide +kernel

end Sample

/-- The statement after a run in which the retransmission comes to a full table. -/
theorem handed_once_full : ∃ (s : Threads Config.posix ℕ Unit) (n : Qos2Log ℕ),
    Threads.Qos2Observed Threads.RetransmitsToFull s n ∧ n.handed ⟨[0x61], 1, 0⟩ = 1 ∧
      (∀ m, n.handed m ≤ 1) := by
  obtain ⟨⟨s, n⟩, hend⟩ := Option.isSome_iff_exists.mp Sample.qos2End_isSome.1
  have hreach : Threads.Qos2Observed Threads.RetransmitsToFull s n :=
    Observer.Reach.run_of_checked Sample.fullRun_checked .start hend
  have hhanded : (Sample.qos2End Sample.fullRun).map (fun r ↦ r.2.handed ⟨[0x61], 1, 0⟩) = some 1 := by
    decide +kernel
  rw [hend] at hhanded
  exact ⟨s, n, hreach, Option.some.inj hhanded, (Threads.handed_once_of_retransmitsToFull hreach).1⟩

/-- A message whose PUBLISH comes again after a reconnect is handed over twice. -/
theorem handed_twice : ∃ (s : Threads Config.posix ℕ Unit) (n : Qos2Log ℕ),
    Threads.Qos2Observed (fun _ _ _ ↦ True) s n ∧ n.handed ⟨[0x61], 1, 0⟩ = 2 := by
  obtain ⟨⟨s, n⟩, hend⟩ := Option.isSome_iff_exists.mp Sample.qos2End_isSome.2
  have hreach : Threads.Qos2Observed (fun _ _ _ ↦ True) s n :=
    Observer.Reach.run (fun _ _ _ _ ↦ trivial) .start hend
  have hhanded : (Sample.qos2End (Sample.reconnectRun ++ Sample.qos2Round 1)).map
      (fun r ↦ r.2.handed ⟨[0x61], 1, 0⟩) = some 2 := by decide +kernel
  rw [hend] at hhanded
  exact ⟨s, n, hreach, Option.some.inj hhanded⟩

end MqttBroker
