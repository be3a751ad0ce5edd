import MqttBroker.Client.InflightTable
import MqttBroker.Client.Connect
import MqttBroker.Client.Rules

/-!
# The outbound messages of a connection

A connection seen from its outbound QoS 1 and QoS 2 messages: packet ids are
given out under the lock, the messages are sent and stored after it, and
acknowledgements and retries come in between.  The fan-out of a publish, the
delivery of retained messages and the draining of a session are runs of these
steps.
-/

namespace MqttBroker

open Relation

/-! ## Steps -/

/-- Where the packet id of an outbound PUBLISH comes from. -/
inductive IdSource where
  /-- the `k`-th id, from 0, that the connection's own counter gave out -/
  | counter (k : ℕ)
  /-- an id stored with a message in the session queue -/
  | session (id : UInt16)
  deriving DecidableEq

/-- A connection with the ids its counter gave out, in order, and the source of
the id of each entry in flight. -/
structure Sender where
  client : Client
  given : List UInt16
  source : Fin CLIENT_INFLIGHT_MAX → IdSource

inductive SendEvent where
  /-- an id is taken for a message that is sent later -/
  | take
  /-- a PUBLISH with QoS above 0 is sent and stored -/
  | publish (source : IdSource) (pub : MqttPublish) (buf : Bytes) (now : ℤ)
  | puback (id : UInt16)
  | pubrec (id : UInt16)
  | pubcomp (id : UInt16)
  | retry
  /-- a change of neither the counter nor the table -/
  | other

/-- The first free entry, which `client_inflight_store` takes. -/
def InflightTable.free {n : ℕ} (T : InflightTable n) : Option (Fin n) :=
  (List.finRange n).find? fun i ↦ !(T i).inUse

/-- The counter gives out its next id. -/
def Sender.take (s : Sender) : Sender :=
  let id := Client.advancePacketId s.client.nextPacketId
  { s with client := { s.client with nextPacketId := id }, given := s.given ++ [id] }

/-- A source goes with the entry that the message is stored in. -/
def Sender.publish (s : Sender) (source : IdSource) (pub : MqttPublish) (buf : Bytes) (now : ℤ)
    (sendOk : Bool) : Sender :=
  { s with
    client := s.client.sendAndStore pub buf now sendOk
    source :=
      match InflightTable.free s.client.inflight with
      | some i => Function.update s.source i source
      | none => s.source }

/-- One step of what the broker does to a connection's outbound messages. -/
inductive SenderStep : SendEvent → Sender → Sender → Prop where
  | take (s : Sender) : SenderStep .take s s.take
  | fanOut {s : Sender} {k : ℕ} {pub : MqttPublish} {buf : Bytes} (hqos : 0 < pub.qos)
      (hgiven : s.given[k]? = some pub.packetId)
      (hbuild : packetBuildPublish pub (MQTT_MAX_PACKET_SIZE + 8) = some buf) (now : ℤ)
      (sendOk : Bool) :
      SenderStep (.publish (.counter k) pub buf now) s
        (s.publish (.counter k) pub buf now sendOk)
  | drain {s : Sender} {pub : MqttPublish} {buf : Bytes} (hqos : 0 < pub.qos)
      (hbuild : packetBuildPublish pub (MQTT_MAX_PACKET_SIZE + 8) = some buf) (now : ℤ)
      (sendOk : Bool) :
      SenderStep (.publish (.session pub.packetId) pub buf now) s
        (s.publish (.session pub.packetId) pub buf now sendOk)
  | puback (s : Sender) (id : UInt16) :
      SenderStep (.puback id) s { s with client := s.client.inflightAck id }
  | pubrec (s : Sender) (id : UInt16) (now : ℤ) (sendOk : Bool) :
      SenderStep (.pubrec id) s { s with client := (s.client.pubrec id now sendOk).1 }
  | pubcomp (s : Sender) (id : UInt16) :
      SenderStep (.pubcomp id) s { s with client := s.client.inflightAck id }
  | retry (s : Sender) (now : ℤ) (sendOk : Bool) :
      SenderStep .retry s { s with client := (s.client.inflightRetry now sendOk).1 }
  | other {s : Sender} {c : Client} (htable : c.inflight = s.client.inflight)
      (hnext : c.nextPacketId = s.client.nextPacketId) :
      SenderStep .other s { s with client := c }

/-- One event and the connection around it. -/
structure SendRecord where
  event : SendEvent
  before : Sender
  after : Sender

/-- The runs of a connection since `client_alloc`. -/
inductive SenderRun : List SendRecord → Sender → Prop where
  | start (fd : ℤ) (source : Fin CLIENT_INFLIGHT_MAX → IdSource) :
      SenderRun [] ⟨clientAllocated fd, [], source⟩
  | step {hist : List SendRecord} {s s' : Sender} {e : SendEvent} (hrun : SenderRun hist s)
      (hstep : SenderStep e s s') : SenderRun (hist ++ [⟨e, s, s'⟩]) s'

/-! ## What the steps do to the table -/

theorem Client.clientSend_nextPacketId (c : Client) (sendOk : Bool) :
    (c.clientSend sendOk).nextPacketId = c.nextPacketId := by
  unfold clientSend
  split_ifs <;> rfl

theorem Client.inflightStore_inflight (c : Client) (id : UInt16) (buf : Bytes) (qos : UInt8)
    (now : ℤ) : (c.inflightStore id buf qos now).inflight =
      match InflightTable.free c.inflight with
      | some i => Function.update c.inflight i ⟨id, buf, now, true, qos, false⟩
      | none => c.inflight := by
  unfold inflightStore InflightTable.free
  generalize List.find? _ _ = found
  cases found <;> rfl

/-- The table after a PUBLISH was sent. -/
theorem Client.sendAndStore_inflight (c : Client) {pub : MqttPublish} (hqos : 0 < pub.qos)
    (buf : Bytes) (now : ℤ) (sendOk : Bool) :
    (c.sendAndStore pub buf now sendOk).inflight =
      match InflightTable.free c.inflight with
      | some i => Function.update c.inflight i ⟨pub.packetId, buf, now, true, pub.qos, false⟩
      | none => c.inflight := by
  unfold sendAndStore
  simp only [hqos, if_true]
  rw [inflightStore_inflight, clientSend_inflight]

theorem InflightTable.free_some {n : ℕ} {T : InflightTable n} {i : Fin n} (h : T.free = some i) :
    (T i).inUse = false := by
  simpa using List.find?_some h

/-- The acknowledgement or retry that an event is. -/
def SendEvent.ack : SendEvent → Option AckEvent
  | puback id => some (.puback id)
  | pubrec id => some (.pubrec id)
  | pubcomp id => some (.pubcomp id)
  | retry => some .retry
  | _ => none

/-- What each step does to the table and the sources. -/
theorem SenderStep.cases {e : SendEvent} {s s' : Sender} (h : SenderStep e s s') :
    (∃ source pub buf now sendOk, e = .publish source pub buf now ∧ 0 < pub.qos ∧
      packetBuildPublish pub (MQTT_MAX_PACKET_SIZE + 8) = some buf ∧
      s' = s.publish source pub buf now sendOk) ∨
    s'.source = s.source ∧ ((e.ack = none ∧ s'.client.inflight = s.client.inflight) ∨
      ∃ a, a ≠ .store ∧ e.ack = some a ∧ TableStep a s.client.inflight s'.client.inflight) := by
  cases h with
  | take => exact Or.inr ⟨rfl, Or.inl ⟨rfl, rfl⟩⟩
  | fanOut hqos _ hbuild => exact Or.inl ⟨_, _, _, _, _, rfl, hqos, hbuild, rfl⟩
  | drain hqos hbuild => exact Or.inl ⟨_, _, _, _, _, rfl, hqos, hbuild, rfl⟩
  | puback _ id =>
      exact Or.inr ⟨rfl, Or.inr ⟨_, by simp, rfl, s.client.inflightAck_inflight id ▸ .puback _ id⟩⟩
  | pubcomp _ id =>
      exact Or.inr ⟨rfl, Or.inr ⟨_, by simp, rfl, s.client.inflightAck_inflight id ▸ .pubcomp _ id⟩⟩
  | pubrec _ id now sendOk =>
      exact Or.inr ⟨rfl, Or.inr ⟨_, by simp, rfl, s.client.pubrec_tableStep id now sendOk⟩⟩
  | retry _ now sendOk =>
      exact Or.inr ⟨rfl, Or.inr ⟨_, by simp, rfl, s.client.inflightRetry_tableStep now sendOk⟩⟩
  | other htable => exact Or.inr ⟨rfl, Or.inl ⟨rfl, htable⟩⟩

/-- Where a PUBLISH is stored when it is sent. -/
theorem Sender.publish_entry (s : Sender) (source : IdSource) {pub : MqttPublish}
    (hqos : 0 < pub.qos) (buf : Bytes) (now : ℤ) (sendOk : Bool) (i : Fin CLIENT_INFLIGHT_MAX) :
    (InflightTable.free s.client.inflight = some i ∧
      (s.publish source pub buf now sendOk).client.inflight i =
        ⟨pub.packetId, buf, now, true, pub.qos, false⟩ ∧
      (s.publish source pub buf now sendOk).source i = source) ∨
    (InflightTable.free s.client.inflight ≠ some i ∧
      (s.publish source pub buf now sendOk).client.inflight i = s.client.inflight i ∧
      (s.publish source pub buf now sendOk).source i = s.source i) := by
  unfold publish
  dsimp only
  rw [Client.sendAndStore_inflight _ hqos]
  cases InflightTable.free s.client.inflight with
  | none => exact Or.inr ⟨by simp, rfl, rfl⟩
  | some j =>
      by_cases hij : i = j
      · subst hij
        exact Or.inl (by simp)
      · exact Or.inr (by simp [hij, Ne.symm hij])

/-- An entry in use after a step was just stored, or is an old one. -/
theorem SenderStep.entry {e : SendEvent} {s s' : Sender} (h : SenderStep e s s')
    {i : Fin CLIENT_INFLIGHT_MAX} (hi : (s'.client.inflight i).inUse = true) :
    (∃ source pub buf now, e = .publish source pub buf now ∧
      InflightTable.free s.client.inflight = some i ∧
      s'.client.inflight i = ⟨pub.packetId, buf, now, true, pub.qos, false⟩ ∧
      s'.source i = source) ∨
    ((s.client.inflight i).Kept (s'.client.inflight i) ∧ s'.source i = s.source i) := by
  rcases h.cases with ⟨source, pub, buf, now, sendOk, rfl, hqos, -, rfl⟩ |
    ⟨hsource, ⟨-, htable⟩ | ⟨a, hne, -, hstep⟩⟩
  · rcases s.publish_entry source hqos buf now sendOk i with h | ⟨-, hold, hsource⟩
    · exact Or.inl ⟨source, pub, buf, now, rfl, h⟩
    · exact Or.inr ⟨hold ▸ ⟨rfl, rfl, rfl⟩, hsource⟩
  · exact Or.inr ⟨htable ▸ ⟨rfl, rfl, rfl⟩, by rw [hsource]⟩
  · rcases hstep.entry hi with ⟨hstore, -⟩ | ⟨hkept, -⟩
    · exact absurd hstore hne
    · exact Or.inr ⟨hkept, by rw [hsource]⟩

theorem Client.sendAndStore_nextPacketId (c : Client) (pub : MqttPublish) (buf : Bytes) (now : ℤ)
    (sendOk : Bool) : (c.sendAndStore pub buf now sendOk).nextPacketId = c.nextPacketId := by
  have hstore : ∀ (c : Client) id buf qos now,
      (c.inflightStore id buf qos now).nextPacketId = c.nextPacketId := by
    intro c id buf qos now
    unfold inflightStore
    split <;> rfl
  unfold sendAndStore
  dsimp only
  split_ifs
  · rw [hstore, clientSend_nextPacketId]
  · exact c.clientSend_nextPacketId sendOk

theorem Client.inflightAck_nextPacketId (c : Client) (id : UInt16) :
    (c.inflightAck id).nextPacketId = c.nextPacketId := by
  unfold inflightAck
  split <;> rfl

theorem Client.pubrec_nextPacketId (c : Client) (id : UInt16) (now : ℤ) (sendOk : Bool) :
    (c.pubrec id now sendOk).1.nextPacketId = c.nextPacketId := by
  unfold pubrec
  split
  · rfl
  · split
    · rfl
    · exact c.clientSend_nextPacketId sendOk

theorem Client.inflightRetry_nextPacketId (c : Client) (now : ℤ) (sendOk : Bool) :
    (c.inflightRetry now sendOk).1.nextPacketId = c.nextPacketId := by
  unfold inflightRetry
  dsimp only
  split_ifs
  · rfl
  · exact clientSend_nextPacketId _ sendOk

/-- Only taking an id moves the counter. -/
theorem SenderStep.counter {e : SendEvent} {s s' : Sender} (h : SenderStep e s s') :
    s' = s.take ∨ s'.client.nextPacketId = s.client.nextPacketId ∧ s'.given = s.given := by
  cases h with
  | take => exact Or.inl rfl
  | fanOut => exact Or.inr ⟨s.client.sendAndStore_nextPacketId _ _ _ _, rfl⟩
  | drain => exact Or.inr ⟨s.client.sendAndStore_nextPacketId _ _ _ _, rfl⟩
  | puback => exact Or.inr ⟨s.client.inflightAck_nextPacketId _, rfl⟩
  | pubrec => exact Or.inr ⟨s.client.pubrec_nextPacketId _ _ _, rfl⟩
  | pubcomp => exact Or.inr ⟨s.client.inflightAck_nextPacketId _, rfl⟩
  | retry => exact Or.inr ⟨s.client.inflightRetry_nextPacketId _ _, rfl⟩
  | other _ hnext => exact Or.inr ⟨hnext, rfl⟩

/-! ## The code runs these steps -/

namespace Sender

def Steps : Sender → Sender → Prop := ReflTransGen fun s s' ↦ ∃ e, SenderStep e s s'

/-- The connection can become `c` by such steps. -/
def Reaches (s : Sender) (c : Client) : Prop := ∃ s', s.Steps s' ∧ s'.client = c

theorem Steps.given {s s' : Sender} (h : s.Steps s') : s.given <+: s'.given := by
  induction h with
  | refl => exact List.prefix_refl _
  | tail _ hstep ih =>
      obtain ⟨e, hstep⟩ := hstep
      refine ih.trans ?_
      cases hstep with
      | take => exact List.prefix_append _ _
      | _ => exact List.prefix_refl _

theorem Reaches.refl (s : Sender) : s.Reaches s.client := ⟨s, .refl, rfl⟩

theorem Steps.reaches {s s' : Sender} {c : Client} (h : s.Steps s') (h' : s'.Reaches c) :
    s.Reaches c := by
  obtain ⟨t, ht, rfl⟩ := h'
  exact ⟨t, h.trans ht, rfl⟩

theorem Reaches.head {s s' : Sender} {e : SendEvent} {c : Client} (hstep : SenderStep e s s')
    (h : s'.Reaches c) : s.Reaches c := Steps.reaches (.single ⟨e, hstep⟩) h

theorem Reaches.other {s : Sender} {c : Client} (htable : c.inflight = s.client.inflight)
    (hnext : c.nextPacketId = s.client.nextPacketId) : s.Reaches c :=
  ⟨{ s with client := c }, .single ⟨_, .other htable hnext⟩, rfl⟩

end Sender

theorem SenderStep.clientSend (s : Sender) (sendOk : Bool) :
    SenderStep .other s { s with client := s.client.clientSend sendOk } :=
  .other (s.client.clientSend_inflight sendOk) (s.client.clientSend_nextPacketId sendOk)

/-- A message that can be sent now: one without a packet id, or one whose id the
counter gave out. -/
def Sender.Ready (s : Sender) (pub : MqttPublish) : Prop :=
  0 < pub.qos → ∃ k : ℕ, s.given[k]? = some pub.packetId

theorem Sender.Ready.mono {s s' : Sender} {pub : MqttPublish} (h : s.Ready pub)
    (hpre : s.given <+: s'.given) : s'.Ready pub := by
  intro hqos
  obtain ⟨k, hk⟩ := h hqos
  obtain ⟨tail, htail⟩ := hpre
  exact ⟨k, by rw [← htail, List.getElem?_append_left (List.getElem?_eq_some_iff.mp hk).1, hk]⟩

theorem Client.sendAndStore_qos0 (c : Client) {pub : MqttPublish} (hqos : ¬ 0 < pub.qos)
    (buf : Bytes) (now : ℤ) (sendOk : Bool) :
    c.sendAndStore pub buf now sendOk = c.clientSend sendOk := by
  simp [sendAndStore, hqos]

/-- Sending a built message that is ready. -/
theorem Sender.Ready.send {s : Sender} {pub : MqttPublish} (h : s.Ready pub) {buf : Bytes}
    (hbuild : packetBuildPublish pub (MQTT_MAX_PACKET_SIZE + 8) = some buf) (now : ℤ)
    (sendOk : Bool) : ∃ s' e, SenderStep e s s' ∧
      s'.client = s.client.sendAndStore pub buf now sendOk ∧ s'.given = s.given := by
  by_cases hqos : 0 < pub.qos
  · obtain ⟨k, hk⟩ := h hqos
    exact ⟨_, _, .fanOut hqos hk hbuild now sendOk, rfl, rfl⟩
  · rw [Client.sendAndStore_qos0 _ hqos]
    exact ⟨_, _, .clientSend s sendOk, rfl, rfl⟩

section

variable {cfg : Config} {κ : Type} [DecidableEq κ] {me : κ}

/-- The ids of the targets that are this connection were given out by its counter. -/
def Sender.TargetsGiven (s : Sender) (me : κ) (targets : List (DeliveryTarget κ)) : Prop :=
  ∀ target ∈ targets, target.client = me → 0 < target.qos →
    ∃ k : ℕ, s.given[k]? = some target.packetId

/-- A round of the loops under the lock adds at most one target; if its QoS is
above 0 its client's counter gave out the id. -/
theorem collectQos_cases (t : TopicTable cfg κ) (pub : MqttPublish) (st : Collected κ)
    (i : Slot cfg) :
    ((collectQos t pub st i).targets = st.targets ∧
      (collectQos t pub st i).clients = st.clients) ∨
    ∃ c qos id, (collectQos t pub st i).targets = st.targets ++ [⟨c, qos, id⟩] ∧
      ((¬ 0 < qos ∧ (collectQos t pub st i).clients = st.clients) ∨
        id = Client.advancePacketId (st.clients c).nextPacketId ∧
          (collectQos t pub st i).clients = Function.update st.clients c
            { st.clients c with nextPacketId := id }) := by
  simp only [collectQos, addQosDeliveryTarget]
  generalize (if pub.qos < (t.subs i).qos then pub.qos else (t.subs i).qos) = qos
  split_ifs with hseen hfull hqos
  · exact Or.inl ⟨rfl, rfl⟩
  · exact Or.inl ⟨rfl, rfl⟩
  · exact Or.inr ⟨_, _, _, rfl, Or.inr ⟨rfl, rfl⟩⟩
  · exact Or.inr ⟨_, _, _, rfl, Or.inl ⟨hqos, rfl⟩⟩

omit [DecidableEq κ] in
theorem Sender.TargetsGiven.concat {s s' : Sender} {targets : List (DeliveryTarget κ)}
    (h : s.TargetsGiven me targets) (hpre : s.given <+: s'.given) {target : DeliveryTarget κ}
    (hnew : target.client = me → 0 < target.qos →
      ∃ k : ℕ, s'.given[k]? = some target.packetId) :
    s'.TargetsGiven me (targets ++ [target]) := by
  intro x hx hme hqos
  rcases List.mem_append.mp hx with hx | hx
  · obtain ⟨k, hk⟩ := h x hx hme hqos
    obtain ⟨tail, htail⟩ := hpre
    exact ⟨k, by rw [← htail, List.getElem?_append_left (List.getElem?_eq_some_iff.mp hk).1, hk]⟩
  · obtain rfl := List.mem_singleton.mp hx
    exact hnew hme hqos

/-- Every connection can become what it is in `b'` by these steps. -/
def Broker.Outbound (b b' : Broker cfg κ) : Prop :=
  ∀ (k : κ) (s : Sender), s.client = b.clients k → s.Reaches (b'.clients k)

namespace Broker.Outbound

omit [DecidableEq κ] in
theorem refl (b : Broker cfg κ) : b.Outbound b := fun _ s hs ↦ ⟨s, .refl, hs⟩

omit [DecidableEq κ] in
theorem trans {a b c : Broker cfg κ} (h : a.Outbound b) (h' : b.Outbound c) : a.Outbound c := by
  intro k s hs
  obtain ⟨s', hsteps, hs'⟩ := h k s hs
  exact hsteps.reaches (h' k s' hs')

theorem client (b : Broker cfg κ) (me : κ) (f : Client → Client)
    (h : ∀ s : Sender, s.client = b.clients me → s.Reaches (f (b.clients me))) :
    b.Outbound (b.updateClient me f) := by
  intro k s hs
  by_cases hk : k = me
  · subst hk
    simpa [Broker.updateClient] using h s hs
  · simpa [Broker.updateClient, hk] using refl b k s hs

/-- A change of one connection by a single step. -/
theorem step (b : Broker cfg κ) (me : κ) (f : Client → Client)
    (h : ∀ s, ∃ e, SenderStep e s { s with client := f s.client }) :
    b.Outbound (b.updateClient me f) := by
  refine client b me f fun s hs ↦ ⟨_, .single (h s), ?_⟩
  dsimp only
  rw [hs]

end Broker.Outbound

omit [DecidableEq κ] in
theorem Client.Mark.step {f : Client → Client} (hf : ∀ c, Client.Mark c (f c)) (s : Sender) :
    SenderStep .other s { s with client := f s.client } := by
  have hkept : ∀ {c c' : Client}, Client.Mark c c' →
      c'.inflight = c.inflight ∧ c'.nextPacketId = c.nextPacketId := by
    rintro _ _ ⟨⟩
    exact ⟨rfl, rfl⟩
  exact .other (hkept (hf s.client)).1 (hkept (hf s.client)).2

end

end MqttBroker
