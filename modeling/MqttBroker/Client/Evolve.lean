import MqttBroker.Client.Connect
import MqttBroker.Client.Rules

/-!
# What a handler can change

Handlers reach a connection through few functions.  `ClientStep` lists what
they do to a `client_t` and `Evolves` what a handled packet or a publish does
to the broker, so that an invariant is checked once for each kind of change.
-/

namespace MqttBroker

open Relation

/-- The buffer size that the callers of `packet_build_publish` pass. -/
def PUBLISH_FRAME_MAX : ℕ := MQTT_MAX_PACKET_SIZE + 8

variable {cfg : Config} {κ : Type}

/-! ## One connection -/

/-- What sending does to a connection. -/
inductive SendStep : Client → Client → Prop where
  | send (c : Client) (sendOk : Bool) : SendStep c (c.clientSend sendOk)
  | takeId (c : Client) (id : UInt16) : SendStep c { c with nextPacketId := id }
  | store (c : Client) (pub : MqttPublish) (buf : Bytes) (now : ℤ) (hnul : 0 ∉ pub.topic)
      (hretain : pub.retain ≤ 1) (hbuild : packetBuildPublish pub PUBLISH_FRAME_MAX = some buf) :
      SendStep c (c.inflightStore pub.packetId buf pub.qos now)

/-- What handlers do to a connection. -/
inductive ClientStep : Client → Client → Prop where
  | sent {c c' : Client} (h : SendStep c c') : ClientStep c c'
  | ack (c : Client) (id : UInt16) : ClientStep c (c.inflightAck id)
  | pubrec (c : Client) (id : UInt16) (now : ℤ) (sendOk : Bool) :
      ClientStep c (c.pubrec id now sendOk).1
  | retry (c : Client) (now : ℤ) (sendOk : Bool) : ClientStep c (c.inflightRetry now sendOk).1
  | mark (c : Client) (state : ClientState) (lastSeenMs : ℤ) (hasWill : Bool) (qos2In : Qos2Table) :
      ClientStep c
        { c with state := state, lastSeenMs := lastSeenMs, hasWill := hasWill, qos2In := qos2In }

/-- Sending C-string topics is made of `SendStep`s. -/
theorem sendStep_rule :
    SendRule (fun pub ↦ 0 ∉ pub.topic ∧ pub.retain ≤ 1) (ReflTransGen SendStep) where
  refl _ := .refl
  trans := .trans
  send c sendOk := .single (.send c sendOk)
  takeId c id := .single (.takeId c id)
  store c pub buf now hpub hbuild := .single (.store c pub buf now hpub.1 hpub.2 hbuild)

theorem clientSteps_of_sendSteps {c c' : Client} (h : ReflTransGen SendStep c c') :
    ReflTransGen ClientStep c c' := ReflTransGen.mono (fun _ _ ↦ .sent) _ _ h

/-! ## One broker -/

/-- Every stored topic is a C string. -/
structure Broker.CStrings (b : Broker cfg κ) : Prop where
  retained : ∀ r, b.retains = some r → ∀ i, 0 ∉ (r i).topic
  queued : ∀ p, b.sessions = some p → ∀ i j, ((p i).queue j).inUse = true →
    0 ∉ ((p i).queue j).topic
  will : ∀ k, 0 ∉ (b.clients k).will.topic

/-- The session pool after the offline part of a publish. -/
def OfflineStep (pool pool' : SessionPool cfg) : Prop :=
  ∃ pub : MqttPublish, 0 ∉ pub.topic ∧ pool' = (sessionOfflinePublish pool pub topicMatch).1

/-- What handled packets and publishes make of a broker. -/
structure Broker.Evolves (b b' : Broker cfg κ) : Prop where
  clients : ∀ k, ReflTransGen ClientStep (b.clients k) (b'.clients k)
  retains : (∀ r, b.retains = some r → ∀ i, 0 ∉ (r i).topic) →
    ∀ r, b'.retains = some r → ∀ i, 0 ∉ (r i).topic
  sessions : ReflTransGen OfflineStep b.sessions b'.sessions

namespace Broker.Evolves

theorem refl (b : Broker cfg κ) : b.Evolves b := ⟨fun _ ↦ .refl, fun h ↦ h, .refl⟩

theorem trans {a b c : Broker cfg κ} (h : a.Evolves b) (h' : b.Evolves c) : a.Evolves c :=
  ⟨fun k ↦ (h.clients k).trans (h'.clients k), fun hr ↦ h'.retains (h.retains hr),
    h.sessions.trans h'.sessions⟩

theorem table (b : Broker cfg κ) (t : TopicTable cfg κ) : b.Evolves { b with table := t } :=
  ⟨fun _ ↦ .refl, fun h ↦ h, .refl⟩

end Broker.Evolves

theorem ClientStep.will_eq {c c' : Client} (h : ClientStep c c') : c'.will = c.will := by
  cases h with
  | sent h =>
      cases h with
      | send => exact (Client.clientSend_sentTo _ _).will
      | takeId => rfl
      | store => exact (Client.inflightStore_sentTo _ _ _ _ _).will
  | ack => exact (Client.inflightAck_sentTo _ _).will
  | pubrec => exact (Client.pubrec_sentTo _ _ _ _).will
  | retry =>
      unfold Client.inflightRetry
      dsimp only
      split_ifs
      · rfl
      · exact (Client.clientSend_sentTo _ _).will
  | mark => rfl

theorem ClientStep.identity {c c' : Client} (h : ClientStep c c') :
    c'.clientId = c.clientId ∧ c'.cleanSession = c.cleanSession ∧ c'.fd = c.fd := by
  have hsent : ∀ {a b : Client}, Client.SentTo a b →
      b.clientId = a.clientId ∧ b.cleanSession = a.cleanSession ∧ b.fd = a.fd :=
    fun h ↦ ⟨h.clientId, h.cleanSession, h.fd⟩
  cases h with
  | sent h =>
      cases h with
      | send => exact hsent (Client.clientSend_sentTo _ _)
      | takeId => exact ⟨rfl, rfl, rfl⟩
      | store => exact hsent (Client.inflightStore_sentTo _ _ _ _ _)
  | ack => exact hsent (Client.inflightAck_sentTo _ _)
  | pubrec => exact hsent (Client.pubrec_sentTo _ _ _ _)
  | retry now sendOk =>
      unfold Client.inflightRetry
      dsimp only
      split_ifs
      · exact ⟨rfl, rfl, rfl⟩
      · have hsend := Client.clientSend_sentTo
          { c with inflight := fun i ↦ (Client.retryEntry now (c.inflight i)).1 } sendOk
        exact ⟨hsend.clientId, hsend.cleanSession, hsend.fd⟩
  | mark => exact ⟨rfl, rfl, rfl⟩

/-- A relation that every step keeps to the start holds of every run of steps. -/
theorem clientSteps_eq {α : Type*} (f : Client → α)
    (hf : ∀ {c c'}, ClientStep c c' → f c' = f c) {c c' : Client}
    (h : ReflTransGen ClientStep c c') : f c' = f c := by
  induction h with
  | refl => rfl
  | tail _ hstep ih => exact (hf hstep).trans ih

theorem not_mem_take {α : Type*} {a : α} {l : List α} (h : a ∉ l) (n : ℕ) : a ∉ l.take n :=
  fun hmem ↦ h (List.mem_of_mem_take hmem)

/-! ## Publishes -/

/-- `session_enqueue` takes a free entry, or changes nothing. -/
theorem Session.enqueue_cases (s : Session) (pub : MqttPublish) (id : UInt16) :
    (∃ i, (s.queue i).inUse = false ∧ (s.enqueue pub id).1 = { s with
        queue := Function.update s.queue i ⟨pub.topic.take (MQTT_TOPIC_MAX - 1),
          pub.payload.take MQTT_PAYLOAD_MAX, pub.qos, id, pub.dup, true⟩ }) ∨
      (∀ i, (s.queue i).inUse = true) ∧ (s.enqueue pub id).1 = s := by
  unfold enqueue
  split
  · rename_i i hi
    exact Or.inl ⟨i, by simpa using List.find?_some hi, rfl⟩
  · rename_i hnone
    exact Or.inr ⟨by simpa using hnone, rfl⟩

/-- An offline session whose stored filter `j` takes the message. -/
structure Session.Takes (s : Session) (pub : MqttPublish) (matchFn : CStr → CStr → Bool)
    (j : Fin SESSION_SUB_MAX) : Prop where
  inUse : s.inUse = true
  offline : s.offline = true
  first : s.firstMatch pub.topic matchFn = some j
  pub_qos : 0 < pub.qos
  sub_qos : 0 < s.subQos j

/-- What the offline part of a publish does with one session. -/
theorem Session.offlinePublishOne_cases (s : Session) (pub : MqttPublish)
    (matchFn : CStr → CStr → Bool) :
    (s.offlinePublishOne pub matchFn).1 = s ∨
      ∃ j, s.Takes pub matchFn j ∧ ∃ qos id next, qos ≤ s.subQos j ∧
        (s.offlinePublishOne pub matchFn).1 = ({ s with nextPacketId := next }.enqueue
          { pub with qos := qos, packetId := id } id).1 := by
  unfold offlinePublishOne
  by_cases hon : !s.inUse ∨ !s.offline
  · exact Or.inl (by rw [if_pos hon])
  · rw [if_neg hon]
    cases hfirst : s.firstMatch pub.topic matchFn with
    | none => exact Or.inl rfl
    | some j =>
        dsimp only
        obtain ⟨huse, hoff⟩ := not_or.mp hon
        have hmin : ∀ q : UInt8, q = (if pub.qos < s.subQos j then pub.qos else s.subQos j) →
            q ≤ s.subQos j ∧ (0 < q → 0 < pub.qos ∧ 0 < s.subQos j) := by
          rintro q rfl
          split_ifs <;> grind
        generalize (if pub.qos < s.subQos j then pub.qos else s.subQos j) = q at hmin ⊢
        obtain ⟨hle, hpos⟩ := hmin q rfl
        by_cases hq : 0 < q
        · rw [if_pos hq]
          exact Or.inr ⟨j, ⟨by simpa using huse, by simpa using hoff, hfirst, (hpos hq).1,
            (hpos hq).2⟩, q, _, _, hle, rfl⟩
        · rw [if_neg hq]
          exact Or.inl rfl

/-- Queue entries in use hold C strings. -/
def Session.QueueOk (s : Session) : Prop :=
  ∀ j, (s.queue j).inUse = true → 0 ∉ (s.queue j).topic

/-- A queue keeps what its entries in use satisfy if the new entry does as well. -/
theorem Session.enqueue_all {P : SessionMsg → Prop} {s : Session}
    (h : ∀ j, (s.queue j).inUse = true → P (s.queue j)) {pub : MqttPublish} {id : UInt16}
    (hnew : P ⟨pub.topic.take (MQTT_TOPIC_MAX - 1), pub.payload.take MQTT_PAYLOAD_MAX, pub.qos,
      id, pub.dup, true⟩) (j : Fin SESSION_QUEUE_MAX)
    (hj : ((s.enqueue pub id).1.queue j).inUse = true) : P ((s.enqueue pub id).1.queue j) := by
  rcases s.enqueue_cases pub id with ⟨i, -, heq⟩ | ⟨-, heq⟩
  · rw [heq] at hj ⊢
    by_cases hji : j = i
    · subst hji
      simpa using hnew
    · simpa [hji] using h j (by simpa [hji] using hj)
  · rw [heq] at hj ⊢
    exact h j hj

theorem Session.QueueOk.enqueue {s : Session} (h : s.QueueOk) (pub : MqttPublish)
    (hnul : 0 ∉ pub.topic) (id : UInt16) : (s.enqueue pub id).1.QueueOk :=
  Session.enqueue_all (P := fun m ↦ 0 ∉ m.topic) h (not_mem_take hnul _)

theorem Session.QueueOk.offlinePublishOne {s : Session} (h : s.QueueOk) {pub : MqttPublish}
    (hnul : 0 ∉ pub.topic) (matchFn : CStr → CStr → Bool) :
    (s.offlinePublishOne pub matchFn).1.QueueOk := by
  rcases s.offlinePublishOne_cases pub matchFn with heq | ⟨j, -, qos, id, next, -, heq⟩
  · rwa [heq]
  · rw [heq]
    exact Session.QueueOk.enqueue (s := { s with nextPacketId := next }) h
      { pub with qos := qos, packetId := id } hnul id

theorem offlineSteps_queueOk {pool pool' : SessionPool cfg}
    (h : ReflTransGen OfflineStep pool pool')
    (hq : ∀ p, pool = some p → ∀ i, (p i).QueueOk) :
    ∀ p, pool' = some p → ∀ i, (p i).QueueOk := by
  induction h with
  | refl => exact hq
  | @tail mid _ _ hstep ih =>
      obtain ⟨pub, hnul, rfl⟩ := hstep
      unfold sessionOfflinePublish
      split_ifs
      · exact ih
      · cases mid with
        | none => simp
        | some p =>
            rintro _ ⟨rfl⟩ i
            exact (ih p rfl i).offlinePublishOne hnul _

theorem Broker.CStrings.evolves {b b' : Broker cfg κ} (h : b.CStrings) (hev : b.Evolves b') :
    b'.CStrings where
  retained := hev.retains h.retained
  queued := offlineSteps_queueOk hev.sessions h.queued
  will k := by
    rw [clientSteps_eq Client.will ClientStep.will_eq (hev.clients k)]
    exact h.will k

theorem retainPublish_nul {retains : RetainStore} {callocOk : Bool} {pub : MqttPublish}
    {retains' : RetainStore} (h : retainPublish retains callocOk pub = some retains')
    (hnul : 0 ∉ pub.topic) (hr : ∀ r, retains = some r → ∀ i, 0 ∉ (r i).topic) :
    ∀ r, retains' = some r → ∀ i, 0 ∉ (r i).topic := by
  have hupd : ∀ {r : Fin TOPIC_RETAIN_MAX → RetainEntry}, (∀ i, 0 ∉ (r i).topic) →
      ∀ i, 0 ∉ (retainUpdate r pub i).topic := by
    intro r hr i
    have hset : ∀ (j : Fin TOPIC_RETAIN_MAX) (e : RetainEntry), 0 ∉ e.topic →
        0 ∉ (Function.update r j e i).topic := by
      intro j e he
      by_cases hij : i = j
      · subst hij
        simpa using he
      · simpa [hij] using hr i
    rcases retainUpdate_cases r pub with heq | ⟨j, heq⟩ | ⟨-, j, -, heq⟩ <;> rw [heq]
    · exact hr i
    · exact hset j _ (hr j)
    · exact hset j _ (not_mem_take hnul _)
  unfold retainPublish at h
  split_ifs at h
  · obtain rfl := Option.some.inj h
    exact hr
  · unfold retainStoreEnsure at h
    cases retains with
    | some r =>
        obtain rfl := Option.some.inj h
        rintro _ ⟨rfl⟩
        exact hupd (hr r rfl)
    | none =>
        cases callocOk
        · simp at h
        · obtain rfl := Option.some.inj h
          rintro _ ⟨rfl⟩
          exact hupd fun _ ↦ by simp [show (default : RetainEntry) = ⟨[], [], 0, false⟩ from rfl]

section

variable [DecidableEq κ]

theorem update_steps {R : Client → Client → Prop} {clients : κ → Client} {c : κ} {x : Client}
    (h : ReflTransGen R (clients c) x) (d : κ) :
    ReflTransGen R (clients d) (Function.update clients c x d) := by
  by_cases hd : d = c
  · subst hd
    simpa using h
  · simpa [hd] using ReflTransGen.refl

/-- A publish only sends to the clients. -/
theorem topicPublishInternal_sends {env : Env κ} {b : Broker cfg κ} {pub : MqttPublish}
    {propagate : Bool} {r : Published cfg κ} (hnul : 0 ∉ pub.topic)
    (h : topicPublishInternal env b pub propagate = some r) (k : κ) :
    ReflTransGen SendStep (b.clients k) (r.broker.clients k) :=
  sendStep_rule.publish (fun _ ↦ ⟨hnul, (by decide : (0 : UInt8) ≤ 1)⟩) h k

theorem topicPublishInternal_evolves {env : Env κ} {b : Broker cfg κ} {pub : MqttPublish}
    {propagate : Bool} {r : Published cfg κ} (hnul : 0 ∉ pub.topic)
    (h : topicPublishInternal env b pub propagate = some r) : b.Evolves r.broker := by
  refine ⟨fun k ↦ clientSteps_of_sendSteps (topicPublishInternal_sends hnul h k), ?_, ?_⟩
  all_goals unfold topicPublishInternal at h
  all_goals split at h
  · obtain rfl := Option.some.inj h
    exact fun h ↦ h
  · rename_i retains hret
    obtain ⟨⟨clients, sent⟩, -, rfl⟩ := Option.map_eq_some_iff.mp h
    exact retainPublish_nul hret hnul
  · obtain rfl := Option.some.inj h
    exact .refl
  · obtain ⟨⟨clients, sent⟩, -, rfl⟩ := Option.map_eq_some_iff.mp h
    exact .single ⟨pub, hnul, rfl⟩

/-! ## Handlers -/

theorem Broker.Evolves.client (b : Broker cfg κ) (k : κ) (f : Client → Client)
    (h : ReflTransGen ClientStep (b.clients k) (f (b.clients k))) :
    b.Evolves (b.updateClient k f) :=
  ⟨update_steps h, fun h ↦ h, .refl⟩

theorem close_evolves (b : Broker cfg κ) (k : κ) : b.Evolves (b.close k) :=
  .client b k _ (.single (.mark _ .disconnecting _ _ _))

theorem reply_evolves (env : Env κ) (k : κ) (frame : Option Bytes) (h : Handled cfg κ) :
    h.broker.Evolves (h.reply env k frame).broker := by
  cases frame with
  | none => exact .refl _
  | some frame =>
      exact .client h.broker k (·.clientSend (env.sendOk k)) (.single (.sent (.send _ _)))

theorem callPublish_evolves {env : Env κ} {b : Broker cfg κ} {pub : MqttPublish}
    (hnul : 0 ∉ pub.topic) {h : Handled cfg κ} (hrun : callPublish env b pub = some h) :
    b.Evolves h.broker := by
  obtain ⟨r, hr, rfl⟩ := Option.map_eq_some_iff.mp hrun
  exact topicPublishInternal_evolves hnul hr

theorem packetParsePublish_nul {pkt : MqttPacket} {pub : MqttPublish}
    (h : packetParsePublish pkt = some pub) : 0 ∉ pub.topic := by
  simp only [packetParsePublish] at h
  split_ifs at h with h3 hpos
  · simp only [Option.bind_eq_bind, Option.bind_eq_some_iff] at h
    obtain ⟨⟨topic, rest⟩, htopic, ⟨id, payload⟩, -, h⟩ := h
    split_ifs at h with hid hlen
    obtain rfl := Option.some.inj h
    exact readStr_nul htopic
  · simp only [Option.bind_eq_bind, Option.bind_eq_some_iff] at h
    obtain ⟨⟨topic, rest⟩, htopic, h⟩ := h
    split_ifs at h with hlen
    obtain rfl := Option.some.inj h
    exact readStr_nul htopic

omit [DecidableEq κ] in
theorem topicDeliverRetained_steps {retains : RetainStore}
    (hr : ∀ r, retains = some r → ∀ i, 0 ∉ (r i).topic) (c : Client) (filter : CStr)
    (qos : UInt8) (now : ℤ) (sendOk : Bool) :
    ReflTransGen SendStep c (topicDeliverRetained retains c filter qos now sendOk).1 :=
  sendStep_rule.retained (fun r hret i _ _ ↦
    ⟨not_mem_take (hr r hret i) _, (by decide : (1 : UInt8) ≤ 1)⟩) c filter qos now sendOk

omit [DecidableEq κ] in
theorem markStep {c c' : Client} (h : Client.Mark c c') : ClientStep c c' := by
  cases h
  exact .mark _ _ _ _ _

/-- Handlers keep stored topics C strings and change the broker in the listed ways. -/
theorem evolves_rule (me : κ) :
    HandlerRule me fun b b' : Broker cfg κ ↦ b.CStrings → b.Evolves b' where
  refl b _ := .refl b
  trans h h' hb := (h hb).trans (h' (hb.evolves (h hb)))
  subscribe b _ _ _ _ _ _ := .table b _
  unsubscribe b _ _ _ _ := .table b _
  mark b f hf _ := .client b me f (.single (markStep (hf _)))
  send b sendOk _ := .client b me _ (.single (.sent (.send _ _)))
  ack b id _ := .client b me _ (.single (.ack _ _))
  pubrec b id now sendOk _ := .client b me _ (.single (.pubrec _ _ _ _))
  retained b filter qos now sendOk hb := .client b me _
    (clientSteps_of_sendSteps (topicDeliverRetained_steps hb.retained _ _ _ _ _))
  publish env b pub r hpub hrun _ := by
    obtain ⟨pkt, hparse⟩ := hpub.parsed
    exact topicPublishInternal_evolves (packetParsePublish_nul hparse) hrun

/-- Handling a packet changes the broker only in the listed ways. -/
theorem dispatch_evolves {env : Env κ} {b : Broker cfg κ} (hb : b.CStrings) {me : κ}
    {pkt : MqttPacket} {h : Handled cfg κ} (hrun : dispatch env b me pkt = some h) :
    b.Evolves h.broker := (evolves_rule me).dispatch hrun hb

end

end MqttBroker
