import MqttBroker.Client.Threads
import MqttBroker.Client.Persist
import MqttBroker.Topic.Subscriptions
import MqttBroker.Http

/-!
# Stored messages

Messages wait in the retained store and in the queues of the sessions until
`packet_build_publish` makes a frame of them, which it refuses to do for an
empty topic or a topic with a wildcard.  MQTT clients and wills are tested for
this before they are stored; P2P peers and the dashboard are not.
-/

namespace MqttBroker

variable {cfg : Config} {κ σ : Type}

/-! ## What can be sent -/

/-- A topic that `packet_build_publish` accepts. -/
structure PlainTopic (topic : CStr) : Prop where
  ne_nil : topic ≠ []
  no_wildcard : hasWildcard topic = false
  no_nul : 0 ∉ topic

/-- A topic and a payload that can be stored and sent. -/
structure Storable (topic : CStr) (payload : Bytes) : Prop extends PlainTopic topic where
  topic_lt : topic.length < MQTT_TOPIC_MAX
  payload_le : payload.length ≤ MQTT_PAYLOAD_MAX

theorem PlainTopic.storable {topic : CStr} (h : PlainTopic topic) {payload : Bytes}
    (hpayload : payload.length ≤ MQTT_PAYLOAD_MAX) :
    Storable (topic.take (MQTT_TOPIC_MAX - 1)) payload where
  ne_nil hnil := by
    rw [List.take_eq_nil_iff] at hnil
    exact hnil.elim (by decide) h.ne_nil
  no_wildcard := TopicTable.hasWildcard_take h.no_wildcard _
  no_nul := not_mem_take h.no_nul _
  topic_lt := lt_of_le_of_lt (List.length_take_le _ _) (by decide)
  payload_le := hpayload

theorem take_topic {topic : CStr} (h : topic.length < MQTT_TOPIC_MAX) :
    topic.take (MQTT_TOPIC_MAX - 1) = topic :=
  List.take_of_length_le (Nat.le_sub_one_of_lt h)

/-- A frame of `packet_build_publish`, up to its first byte. -/
def BuiltFrame (frame : Bytes) : Prop :=
  ∃ pub flags enc, pub.Sendable ∧ packetEncodeRemainingLen (publishBody pub).length = some enc ∧
    frame = flags :: (enc ++ publishBody pub)

theorem builtFrame_of_build {pub : MqttPublish} {frame : Bytes}
    (h : packetBuildPublish pub PUBLISH_FRAME_MAX = some frame) : BuiltFrame frame := by
  have hs := sendable_of_build h
  obtain ⟨enc, henc, hbuild⟩ := packetBuildPublish_eq hs
  exact ⟨pub, _, enc, hs, henc, Option.some.inj (h.symm.trans hbuild)⟩

theorem BuiltFrame.setDup {frame : Bytes} (h : BuiltFrame frame) :
    BuiltFrame (Client.setDup frame) := by
  obtain ⟨pub, flags, enc, hs, henc, rfl⟩ := h
  exact ⟨pub, flags ||| 0x08, enc, hs, henc, rfl⟩

/-! ## What the stores hold -/

def Inflight.Built (e : Inflight) : Prop := e.inUse = true → e.qos = 1 → BuiltFrame e.buf

/-- What `client_free` parses out of a built frame can be stored. -/
theorem Inflight.reparse_storable {e : Inflight} (h : BuiltFrame e.buf) {pub : MqttPublish}
    (hparse : e.reparse = some pub) : Storable pub.topic pub.payload ∧ pub.qos ≤ 2 := by
  obtain ⟨pub₀, flags, enc, hs, henc, hbuf⟩ := h
  rw [Inflight.reparse, hbuf] at hparse
  simp only [packetDecode_packetEncode henc, Option.bind_eq_bind, Option.bind_some,
    List.drop_left, List.take_length] at hparse
  obtain ⟨htopic, hpayload, hqos⟩ := packetParsePublish_fits hparse
  have hnul := packetParsePublish_nul hparse
  have heq : pub.topic = pub₀.topic := packetParsePublish_topic hs.topic_lt hparse
  exact ⟨⟨⟨heq ▸ hs.topic_ne, heq ▸ hs.no_wildcard, hnul⟩, htopic, hpayload⟩, hqos⟩

namespace Client

structure Stored (c : Client) : Prop where
  will : c.hasWill = true → Storable c.will.topic c.will.payload
  inflight : ∀ i, (c.inflight i).Built

variable {c c' : Client}

theorem Stored.congr (h : c.Stored) (hhas : c'.hasWill = c.hasWill) (hwill : c'.will = c.will)
    (hinflight : c'.inflight = c.inflight) : c'.Stored where
  will := by
    rw [hhas, hwill]
    exact h.will
  inflight := by
    rw [hinflight]
    exact h.inflight

theorem Stored.update (h : c.Stored) (i : Fin CLIENT_INFLIGHT_MAX) {e : Inflight}
    (he : e.Built) : Stored { c with inflight := Function.update c.inflight i e } where
  will := h.will
  inflight j := by
    by_cases hj : j = i
    · subst hj
      simpa using he
    · simpa [hj] using h.inflight j

theorem Stored.clientSend (h : c.Stored) (sendOk : Bool) : (c.clientSend sendOk).Stored :=
  h.congr (c.clientSend_sentTo sendOk).hasWill (c.clientSend_sentTo sendOk).will
    (c.clientSend_inflight sendOk)

theorem Stored.inflightStore (h : c.Stored) {buf : Bytes} (hbuf : BuiltFrame buf) (id : UInt16)
    (qos : UInt8) (now : ℤ) : (c.inflightStore id buf qos now).Stored := by
  unfold Client.inflightStore
  split
  · exact h.update _ fun _ _ ↦ hbuf
  · exact h

theorem Stored.inflightAck (h : c.Stored) (id : UInt16) : (c.inflightAck id).Stored := by
  unfold Client.inflightAck
  split
  · exact h.update _ fun hfree ↦ by simp at hfree
  · exact h

theorem Stored.pubrec (h : c.Stored) (id : UInt16) (now : ℤ) (sendOk : Bool) :
    (c.pubrec id now sendOk).1.Stored := by
  unfold Client.pubrec
  split
  · exact h
  · rename_i i hi
    have hqos : (c.inflight i).qos = 2 := by
      have hp := List.find?_some hi
      simp only [Bool.and_eq_true, decide_eq_true_eq] at hp
      exact hp.1.2
    split
    · exact h
    · refine (h.clientSend sendOk).update i fun _ h1 ↦ ?_
      rw [c.clientSend_inflight, hqos] at h1
      exact absurd h1 (by decide)

theorem Stored.inflightRetry (h : c.Stored) (now : ℤ) (sendOk : Bool) :
    (c.inflightRetry now sendOk).1.Stored := by
  have hretry : Stored { c with inflight := fun i ↦ (retryEntry now (c.inflight i)).1 } := by
    refine ⟨h.will, fun i ↦ ?_⟩
    have hi := h.inflight i
    dsimp only
    unfold retryEntry
    split_ifs with hskip hwait
    · exact hi
    · exact hi
    · exact fun huse hqos ↦ (hi huse hqos).setDup
  unfold Client.inflightRetry
  dsimp only
  split_ifs
  · exact hretry
  · exact hretry.clientSend sendOk

theorem Stored.mark (h : c.Stored) (hmark : Mark c c') : c'.Stored := by
  cases hmark with
  | mk hstate lastSeenMs hasWill qos2In hwill => exact ⟨fun hhas ↦ h.will (hwill hhas), h.inflight⟩

theorem stored_send : SendRule (fun _ ↦ True) fun c c' ↦ c.Stored → c'.Stored where
  refl _ h := h
  trans h h' hc := h' (h hc)
  send _ sendOk h := h.clientSend sendOk
  takeId _ _ h := h.congr rfl rfl rfl
  store _ pub _ now _ hbuild h := h.inflightStore (builtFrame_of_build hbuild) pub.packetId pub.qos now

end Client

namespace Session

structure Stored (s : Session) : Prop where
  queue : ∀ j, (s.queue j).inUse = true →
    Storable (s.queue j).topic (s.queue j).payload ∧ (s.queue j).qos ≤ 2
  subs : ∀ j : Fin SESSION_SUB_MAX, j.val < s.subCount → s.subQos j ≤ 2

variable {s : Session}

theorem stored_of_empty (hsubs : s.subCount = 0) (hqueue : ∀ j, (s.queue j).inUse = false) :
    s.Stored where
  queue j hj := by simp [hqueue j] at hj
  subs j hj := by simp [hsubs] at hj

theorem enqueue_subs (s : Session) (pub : MqttPublish) (id : UInt16) :
    (s.enqueue pub id).1.subCount = s.subCount ∧ (s.enqueue pub id).1.subQos = s.subQos := by
  rcases s.enqueue_cases pub id with ⟨i, -, heq⟩ | ⟨-, heq⟩ <;> rw [heq] <;> exact ⟨rfl, rfl⟩

theorem Stored.enqueue (h : s.Stored) {pub : MqttPublish} (htopic : PlainTopic pub.topic)
    (hqos : pub.qos ≤ 2) (id : UInt16) : (s.enqueue pub id).1.Stored where
  queue := enqueue_all (P := fun m ↦ Storable m.topic m.payload ∧ m.qos ≤ 2) h.queue
    ⟨htopic.storable (List.length_take_le _ _), hqos⟩
  subs := by
    rw [(s.enqueue_subs pub id).1, (s.enqueue_subs pub id).2]
    exact h.subs

/-- The queue takes the message. -/
def Queues (s : Session) (pub : MqttPublish) : Prop :=
  (∃ j, s.Takes pub topicMatch j) ∧ ∃ q, (s.queue q).inUse = false

theorem Stored.offlinePublishOne (h : s.Stored) {pub : MqttPublish}
    (hpub : s.Queues pub → PlainTopic pub.topic) :
    (s.offlinePublishOne pub topicMatch).1.Stored := by
  rcases s.offlinePublishOne_cases pub topicMatch with heq | ⟨j, htakes, qos, id, next, hle, heq⟩
  · rwa [heq]
  · have hj : j.val < s.subCount := by
      have hp := List.find?_some htakes.first
      simp only [Bool.and_eq_true, decide_eq_true_eq] at hp
      exact hp.1
    rw [heq]
    have hstored : Stored { s with nextPacketId := next } := ⟨h.queue, h.subs⟩
    by_cases hfree : ∃ q, (s.queue q).inUse = false
    · have htopic : PlainTopic ({ pub with qos := qos, packetId := id } : MqttPublish).topic :=
        hpub ⟨⟨j, htakes⟩, hfree⟩
      exact hstored.enqueue htopic (UInt8.le_trans hle (h.subs j hj)) id
    · rcases Session.enqueue_cases { s with nextPacketId := next }
          { pub with qos := qos, packetId := id } id with ⟨q, hq, -⟩ | ⟨-, hfull⟩
      · exact absurd ⟨q, hq⟩ hfree
      · rwa [hfull]

theorem Stored.saveInflight (h : s.Stored) {e : Inflight} (he : e.Built) :
    (s.saveInflight e).Stored := by
  unfold Session.saveInflight
  split_ifs with hskip
  · exact h
  · obtain ⟨huse, hqos⟩ := not_or.mp hskip
    cases hparse : e.reparse with
    | none => exact h
    | some pub =>
        obtain ⟨hpub, hle⟩ :=
          Inflight.reparse_storable (he (by simpa using huse) (by simpa using hqos)) hparse
        have htopic : PlainTopic ({ pub with dup := 1 } : MqttPublish).topic := hpub.toPlainTopic
        exact h.enqueue htopic hle e.packetId

theorem Stored.saveSubs (h : s.Stored) {subs : List (CStr × UInt8)}
    (hsubs : ∀ x ∈ subs, x.2 ≤ 2) : (s.saveSubs subs).Stored where
  queue := h.queue
  subs j hj := by
    have hlt : j.val < subs.length := lt_of_lt_of_le hj (min_le_left _ _)
    simp only [Session.saveSubs, List.getElem?_eq_getElem hlt]
    exact hsubs _ (List.getElem_mem hlt)

end Session

/-! ## One broker -/

def RetainsStored (retains : RetainStore) : Prop :=
  ∀ r, retains = some r → ∀ i, (r i).inUse = true → Storable (r i).topic (r i).payload

/-- The retained store takes the message. -/
def Retains (retains : RetainStore) (callocOk : Bool) (pub : MqttPublish) : Prop :=
  pub.retain ≠ 0 ∧ pub.payload ≠ [] ∧ ∃ r, retainStoreEnsure retains callocOk = some r ∧
    ∃ i, (r i).inUse = false ∨ (r i).topic = pub.topic

theorem RetainsStored.publish {retains retains' : RetainStore} {callocOk : Bool}
    {pub : MqttPublish} (h : RetainsStored retains)
    (hpub : Retains retains callocOk pub → Storable pub.topic pub.payload)
    (hrun : retainPublish retains callocOk pub = some retains') : RetainsStored retains' := by
  unfold retainPublish at hrun
  split_ifs at hrun with hretain
  · cases hrun
    exact h
  split at hrun
  · cases hrun
  rename_i r hens
  cases hrun
  rintro _ ⟨rfl⟩ i
  have hr : ∀ i, (r i).inUse = true → Storable (r i).topic (r i).payload := by
    unfold retainStoreEnsure at hens
    cases retains with
    | some _ => exact h r hens
    | none =>
        split_ifs at hens
        cases hens
        exact fun i hi ↦ by cases hi
  have hset : ∀ (j : Fin TOPIC_RETAIN_MAX) (e : RetainEntry),
      (e.inUse = true → Storable e.topic e.payload) →
      (Function.update r j e i).inUse = true →
      Storable (Function.update r j e i).topic (Function.update r j e i).payload := by
    intro j e he
    by_cases hij : i = j
    · subst hij
      simpa using he
    · simpa [hij] using hr i
  rcases retainUpdate_cases r pub with heq | ⟨j, heq⟩ | ⟨hne, j, htaken, heq⟩ <;> rw [heq]
  · exact hr i
  · exact hset j _ fun hfree ↦ by cases hfree
  · have hstore : Storable pub.topic pub.payload := hpub ⟨hretain, hne, r, hens, j, htaken⟩
    refine hset j _ fun _ ↦ ?_
    dsimp only
    rwa [take_topic hstore.topic_lt]

theorem sessionOfflinePublish_stored {pool : SessionPool cfg} (h : PoolAll Session.Stored pool)
    {pub : MqttPublish} (hpub : ∀ p i, pool = some p → (p i).Queues pub → PlainTopic pub.topic) :
    PoolAll Session.Stored (sessionOfflinePublish pool pub topicMatch).1 := by
  unfold sessionOfflinePublish
  split_ifs
  · exact h
  · cases pool with
    | none => exact h
    | some p =>
        rintro _ ⟨rfl⟩ i
        exact (h p rfl i).offlinePublishOne (hpub p i rfl)

namespace Broker

structure Stored (b : Broker cfg κ) : Prop where
  retains : RetainsStored b.retains
  sessions : PoolAll Session.Stored b.sessions
  table : b.table.SubsAll fun x ↦ x.qos ≤ 2
  clients : ∀ k, (b.clients k).Stored

variable {b : Broker cfg κ}

theorem Stored.session (h : b.Stored) (i : SessionSlot cfg) : (b.session i).Stored := by
  unfold Broker.session
  split
  · rename_i pool hpool
    exact h.sessions pool hpool i
  · exact Session.stored_of_empty rfl fun _ ↦ rfl

theorem Stored.updateSession (h : b.Stored) {i : SessionSlot cfg} {f : Session → Session}
    (hf : (b.session i).Stored → (f (b.session i)).Stored) : (b.updateSession i f).Stored := by
  refine ⟨h.retains, fun p hp ↦ ?_, h.table, h.clients⟩
  obtain ⟨pool, hpool, rfl⟩ := Option.map_eq_some_iff.mp hp
  have hsession : b.session i = pool i := by simp [Broker.session, hpool]
  exact poolAll_update (h.sessions pool hpool) (hsession ▸ hf (h.session i)) i

variable [DecidableEq κ]

theorem Stored.updateClient (h : b.Stored) {me : κ} {f : Client → Client}
    (hf : (b.clients me).Stored → (f (b.clients me)).Stored) : (b.updateClient me f).Stored := by
  refine ⟨h.retains, h.sessions, h.table, fun k ↦ ?_⟩
  by_cases hk : k = me
  · subst hk
    simpa [Broker.updateClient] using hf (h.clients k)
  · simpa [Broker.updateClient, hk] using h.clients k

theorem Stored.publish (h : b.Stored) {env : Env κ} {pub : MqttPublish} {propagate : Bool}
    (hpub : Storable pub.topic pub.payload) {r : Published cfg κ}
    (hrun : topicPublishInternal env b pub propagate = some r) : r.broker.Stored := by
  have hclients : ∀ k, (r.broker.clients k).Stored := fun k ↦
    Client.stored_send.publish (fun _ ↦ trivial) hrun k (h.clients k)
  unfold topicPublishInternal at hrun
  split at hrun
  · cases hrun
    exact h
  · rename_i retains hretain
    obtain ⟨⟨clients, sent⟩, -, rfl⟩ := Option.map_eq_some_iff.mp hrun
    exact ⟨h.retains.publish (fun _ ↦ hpub) hretain,
      sessionOfflinePublish_stored h.sessions fun _ _ _ _ ↦ hpub.toPlainTopic, h.table, hclients⟩

end Broker

section

variable [DecidableEq κ]

theorem MqttPublish.Accepted.storable {pub : MqttPublish} (h : pub.Accepted) :
    Storable pub.topic pub.payload := by
  obtain ⟨pkt, hparse⟩ := h.parsed
  obtain ⟨htopic, hpayload, -⟩ := packetParsePublish_fits hparse
  exact ⟨⟨h.topic_ne, h.no_wildcard, packetParsePublish_nul hparse⟩, htopic, hpayload⟩

/-- Handled packets store what can be sent. -/
theorem stored_rule (me : κ) : HandlerRule me fun b b' : Broker cfg κ ↦ b.Stored → b'.Stored where
  refl _ h := h
  trans h h' hb := h' (h hb)
  subscribe _ _ _ _ _ hqos h :=
    ⟨h.retains, h.sessions, h.table.topicSubscribe fun _ ↦ hqos, h.clients⟩
  unsubscribe _ _ _ hrun h := ⟨h.retains, h.sessions, h.table.topicUnsubscribe hrun, h.clients⟩
  mark _ _ hf h := h.updateClient fun hc ↦ hc.mark (hf _)
  send _ sendOk h := h.updateClient fun hc ↦ hc.clientSend sendOk
  ack _ id h := h.updateClient fun hc ↦ hc.inflightAck id
  pubrec _ id now sendOk h := h.updateClient fun hc ↦ hc.pubrec id now sendOk
  retained _ filter qos now sendOk h := h.updateClient
    (Client.stored_send.retained (fun _ _ _ _ _ ↦ trivial) _ filter qos now sendOk)
  publish _ _ _ _ hpub hrun h := h.publish hpub.storable hrun

/-! ## One thread -/

/-- What a thread has read and not yet stored. -/
def ConnPc.Stored : ConnPc cfg → Prop
  | .takeover conn | .assignId conn | .assignRest conn => conn.Checked
  | .publish pub _ => Storable pub.topic pub.payload
  | .lookup subs | .saveSubs _ subs => ∀ x ∈ subs, x.2 ≤ 2
  | _ => True

theorem Client.Stored.assignRest {c : Client} (h : c.Stored) {conn : MqttConnect}
    (hconn : conn.Checked) : (c.assignRest conn).Stored where
  will := by
    intro (hhas : conn.hasWill = true)
    obtain ⟨hne, hplain⟩ := hconn.willTopic hhas
    have htopic : PlainTopic conn.willTopic := ⟨hne, hplain, hconn.willTopic_nul⟩
    simp only [Client.assignRest, Client.connectFields, hhas, if_true]
    exact htopic.storable (hconn.willPayload.trans (by decide))
  inflight := h.inflight

theorem topicGetClientSubs_le {t : TopicTable cfg κ}
    (h : t.SubsAll fun x ↦ x.qos ≤ 2) (c : κ) (n : ℕ) :
    ∀ x ∈ t.topicGetClientSubs c n, x.2 ≤ 2 := by
  intro x hx
  obtain ⟨i, hi, rfl⟩ := List.mem_map.mp hx
  have hp := (List.mem_filter.mp (List.mem_of_mem_take hi)).2
  simp only [Bool.and_eq_true, decide_eq_true_eq] at hp
  exact h i ⟨c, (t.subs i).filter, (t.subs i).qos⟩
    (TopicTable.sub_eq_some_iff.mpr ⟨hp.1, hp.2, rfl, rfl⟩)

theorem connStep_stored {env : Env κ} {b : Broker cfg κ} {me : κ} {pc pc' : ConnPc cfg}
    {h : Handled cfg κ} (hb : b.Stored) (hpc : pc.Stored)
    (hnext : connStep env b me pc = some (h, pc')) : h.broker.Stored ∧ pc'.Stored := by
  cases pc with
  | takeover conn =>
      cases hnext
      refine ⟨⟨hb.retains, hb.sessions, hb.table, fun k ↦ ?_⟩, hpc⟩
      simp only [clientTakeover]
      split_ifs
      · exact (hb.clients k).congr rfl rfl rfl
      · exact hb.clients k
  | assignId conn =>
      cases hnext
      exact ⟨hb.updateClient (f := (·.assignId conn)) fun hc ↦ hc.congr rfl rfl rfl, hpc⟩
  | assignRest conn =>
      cases hnext
      exact ⟨hb.updateClient (f := (·.assignRest conn)) fun hc ↦ hc.assignRest hpc, trivial⟩
  | openSession conn =>
      cases hnext
      refine ⟨⟨hb.retains, ?_, hb.table, hb.clients⟩, trivial⟩
      dsimp only
      unfold connectSession
      split_ifs
      · exact hb.sessions.delete (fun s hs ↦ ⟨hs.queue, hs.subs⟩) _
      · exact hb.sessions.findOrCreate (fun _ ↦ Session.stored_of_empty) _ _
  | connack sess present =>
      cases hnext
      refine ⟨(stored_rule me).reply env _ ⟨b, []⟩ hb, ?_⟩
      cases sess <;> cases present <;> trivial
  | restore s i =>
      simp only [connStep] at hnext
      split at hnext
      · rename_i hi
        cases hnext
        refine ⟨?_, trivial⟩
        unfold restoreOne
        rw [if_pos hi.2]
        exact ⟨hb.retains, hb.sessions,
          hb.table.topicSubscribe fun _ ↦ (hb.session s).subs ⟨i, hi.1⟩ hi.2, hb.clients⟩
      · cases hnext
        exact ⟨hb, trivial⟩
  | online s =>
      cases hnext
      exact ⟨hb.updateSession (f := fun x ↦ { x with offline := false })
        fun hs ↦ ⟨hs.queue, hs.subs⟩, trivial⟩
  | drain s =>
      cases hnext
      have hdrained : (b.updateSession s fun _ ↦
          ((b.session s).drain (b.clients me) env.now (env.sendOk me)).1).Stored := by
        refine hb.updateSession fun hs ↦ ⟨fun j hj ↦ ?_, hs.subs⟩
        cases hj
      exact ⟨hdrained.updateClient (f := fun _ ↦
          ((b.session s).drain (b.clients me) env.now (env.sendOk me)).2.1)
        (Client.stored_send.drain (fun _ _ ↦ trivial) _ env.now (env.sendOk me)), trivial⟩
  | loop =>
      cases hnext
      refine ⟨hb, ?_⟩
      split_ifs <;> trivial
  | reply ack =>
      cases hnext
      exact ⟨(stored_rule me).reply env ack ⟨b, []⟩ hb, trivial⟩
  | closeFd =>
      cases hnext
      exact ⟨hb.updateClient (f := (·.closeFd)) fun hc ↦ hc.congr rfl rfl rfl, trivial⟩
  | will =>
      simp only [connStep] at hnext
      split_ifs at hnext
      cases hnext
      exact ⟨hb, trivial⟩
  | clearWill =>
      cases hnext
      refine ⟨hb.updateClient (f := fun c ↦ { c with hasWill := false })
        fun hc ↦ ⟨fun hhas ↦ ?_, hc.inflight⟩, trivial⟩
      cases hhas
  | collect =>
      cases hnext
      refine ⟨hb, ?_⟩
      split_ifs
      · trivial
      · exact topicGetClientSubs_le hb.table me SESSION_SUB_MAX
  | lookup subs =>
      cases hnext
      refine ⟨⟨hb.retains, hb.sessions.findOrCreate (fun _ ↦ Session.stored_of_empty) _ _,
        hb.table, hb.clients⟩, ?_⟩
      cases (sessionFindOrCreate b.sessions env.callocOk (b.clients me).clientId).2.1 with
      | none => trivial
      | some s => exact hpc
  | saveSubs s subs =>
      cases hnext
      exact ⟨hb.updateSession (f := (·.saveSubs subs)) fun hs ↦ hs.saveSubs hpc, trivial⟩
  | saveInflight s i =>
      simp only [connStep] at hnext
      split at hnext
      · rename_i hi
        cases hnext
        exact ⟨hb.updateSession (f := (·.saveInflight ((b.clients me).inflight ⟨i, hi⟩)))
          fun hs ↦ hs.saveInflight ((hb.clients me).inflight _), trivial⟩
      · cases hnext
        exact ⟨hb, trivial⟩
  | unsubscribe =>
      obtain ⟨r, hsection, heq⟩ := Option.map_eq_some_iff.mp hnext
      cases heq
      refine ⟨⟨hb.retains, hb.sessions, hb.table.removed (unsubscribeSection_removed hsection).1,
        hb.clients⟩, ?_⟩
      split_ifs <;> trivial
  | delete =>
      cases hnext
      refine ⟨?_, trivial⟩
      dsimp only
      split_ifs
      · exact ⟨hb.retains, hb.sessions.delete (fun s hs ↦ ⟨hs.queue, hs.subs⟩) _, hb.table,
          hb.clients⟩
      · exact hb
  | release =>
      cases hnext
      exact ⟨hb.updateClient (f := fun c ↦ { c with state := .free })
        fun hc ↦ hc.congr rfl rfl rfl, trivial⟩
  | idle | waiting | recv | publish => cases hnext

/-- What is published on the packet of an MQTT client can be stored. -/
theorem publishBegin_stored {env : Env κ} {b b' : Broker cfg κ} {me : κ} {pkt : MqttPacket}
    {pub : MqttPublish} {ack : Option Bytes} (hb : b.Stored)
    (h : publishBegin env b me pkt = some (b', pub, ack)) :
    b'.Stored ∧ Storable pub.topic pub.payload := by
  unfold publishBegin at h
  rcases ite_eq_iff.mp h with ⟨-, h⟩ | ⟨-, h⟩
  · cases h
  split at h
  · cases h
  rename_i pub' hparse
  have hseen : (b.updateClient me fun c ↦ { c with lastSeenMs := env.now }).Stored :=
    hb.updateClient fun hc ↦ hc.congr rfl rfl rfl
  dsimp only at h
  generalize b.updateClient me (fun c ↦ { c with lastSeenMs := env.now }) = b₁ at h hseen
  rcases ite_eq_iff.mp h with ⟨-, h⟩ | ⟨hok, h⟩
  · cases h
  obtain ⟨-, htopic, -⟩ : pub'.qos ≠ 3 ∧ ¬(pub'.topic = [] ∨ hasWildcard pub'.topic = true) ∧
      ¬(0 < pub'.qos ∧ pub'.packetId = 0) := by
    simpa only [not_or] using hok
  obtain ⟨hne, hplain⟩ := not_or.mp htopic
  have hstore : Storable pub'.topic pub'.payload :=
    MqttPublish.Accepted.storable ⟨⟨pkt, hparse⟩, hne, by simpa using hplain⟩
  rcases ite_eq_iff.mp h with ⟨-, h⟩ | ⟨-, h⟩
  · split at h
    · cases h
      exact ⟨hseen.updateClient fun hc ↦ hc.congr rfl rfl rfl, hstore⟩
    · cases h
    · cases h
  · cases h
    exact ⟨hseen, hstore⟩

/-! ## A publish in steps -/

def SendOp.Built : SendOp κ → Prop
  | .send _ _ => True
  | .store _ _ frame _ => BuiltFrame frame

omit [DecidableEq κ] in
theorem targetOps_built (pub : MqttPublish) (target : DeliveryTarget κ) :
    ∀ op ∈ targetOps pub target, op.Built := by
  intro op hop
  unfold targetOps at hop
  dsimp only at hop
  split at hop
  · cases hop
  · rename_i buf hbuild
    rcases List.mem_cons.mp hop with rfl | hop
    · trivial
    · split_ifs at hop
      · obtain rfl := List.mem_singleton.mp hop
        exact builtFrame_of_build hbuild
      · cases hop

theorem fanOutOps_stored {t : TopicTable cfg κ} {clients : κ → Client} {pub : MqttPublish}
    {r : (κ → Client) × List (SendOp κ)} (hclients : ∀ k, (clients k).Stored)
    (h : fanOutOps t clients pub = some r) :
    (∀ k, (r.1 k).Stored) ∧ ∀ op ∈ r.2, op.Built := by
  unfold fanOutOps at h
  split_ifs at h
  · obtain ⟨ops, hops, rfl⟩ := Option.map_eq_some_iff.mp h
    refine ⟨hclients, fun op hop ↦ ?_⟩
    obtain ⟨slots, -, hops⟩ := Option.bind_eq_some_iff.mp hops
    split at hops
    · cases hops
      cases hop
    · cases hops
      obtain ⟨c, -, rfl⟩ := List.mem_map.mp hop
      trivial
  · obtain ⟨slots, -, heq⟩ := Option.bind_eq_some_iff.mp h
    cases heq
    refine ⟨fun k ↦ Client.stored_send.collect t pub slots ⟨[], [], clients⟩ k (hclients k),
      fun op hop ↦ ?_⟩
    obtain ⟨target, -, hop⟩ := List.mem_flatMap.mp hop
    exact targetOps_built pub target op hop

theorem publishLocked_stored {env : Env κ} {b : Broker cfg κ} {pub : MqttPublish}
    {r : Broker cfg κ × Option (List (SendOp κ))} (hb : b.Stored)
    (hpub : Retains b.retains env.callocOk pub → Storable pub.topic pub.payload)
    (h : publishLocked env b pub = some r) :
    r.1.Stored ∧ ∀ ops, r.2 = some ops → ∀ op ∈ ops, op.Built := by
  unfold publishLocked at h
  split at h
  · cases h
    exact ⟨hb, fun ops hops ↦ by cases hops⟩
  · rename_i retains hretain
    obtain ⟨⟨clients, ops⟩, hops, rfl⟩ := Option.map_eq_some_iff.mp h
    obtain ⟨hclients, hbuilt⟩ := fanOutOps_stored hb.clients hops
    refine ⟨⟨hb.retains.publish hpub hretain, hb.sessions, hb.table, hclients⟩, ?_⟩
    rintro _ ⟨rfl⟩
    exact hbuilt

theorem SendOp.run_stored {env : Env κ} {clients : κ → Client} (h : ∀ k, (clients k).Stored)
    {op : SendOp κ} (hop : op.Built) (k : κ) : (op.run env clients k).Stored := by
  cases op with
  | send c frame => exact Client.stored_send.update (fun h ↦ h.clientSend (env.sendOk c)) k (h k)
  | store c id frame qos =>
      exact Client.stored_send.update (fun h ↦ h.inflightStore hop id qos env.now) k (h k)

end

/-! ## Where messages come from -/

/-- What the threads read that serve no MQTT client.  A message from a
mesh-ingress client goes to the peers and is not published here. -/
inductive Entry where
  /-- a PUBLISH frame of a P2P peer -/
  | peer (frame : Bytes)
  /-- the body of a POST to the dashboard -/
  | dashboard (body : Bytes)

def Entry.publish : Entry → Option MqttPublish
  | .peer frame => (parsePublishFrame frame).map P2pPublishMsg.toPublish
  | .dashboard body => handlePublishApi (cstr body)

theorem Entry.publish_fits {x : Entry} {pub : MqttPublish} (h : x.publish = some pub) :
    0 ∉ pub.topic ∧ pub.topic.length < MQTT_TOPIC_MAX ∧ pub.payload.length ≤ MQTT_PAYLOAD_MAX := by
  cases x with
  | peer frame =>
      obtain ⟨msg, hmsg, rfl⟩ := Option.map_eq_some_iff.mp h
      obtain ⟨hnul, hpayload⟩ := parsePublishFrame_fits hmsg
      exact ⟨not_mem_take hnul _, lt_of_le_of_lt (List.length_take_le _ _) (by decide), hpayload⟩
  | dashboard body =>
      obtain ⟨htopic, hlen, hpayload, -⟩ := handlePublishApi_fits h
      exact ⟨fun hnul ↦ nul_not_mem_cstr body (htopic hnul), hlen, hpayload⟩

namespace Threads

variable [DecidableEq κ] [DecidableEq σ] {s s' : Threads cfg κ σ} {e : ThreadEvent κ σ}

/-- What other threads publish comes from a peer or the dashboard. -/
def FromEntry (_ : Threads cfg κ σ) (e : ThreadEvent κ σ) : Prop :=
  ∀ t env pub, e = .foreign t env pub → ∃ x : Entry, x.publish = some pub

/-- A message of a peer or the dashboard that is about to be retained or queued has a
topic without wildcards. -/
structure StoresPlain (s : Threads cfg κ σ) (e : ThreadEvent κ σ) : Prop where
  entry : s.FromEntry e
  retained : ∀ t env pub, e = .foreign t env pub → Retains s.broker.retains env.callocOk pub →
    pub.topic ≠ [] ∧ hasWildcard pub.topic = false
  queued : ∀ who job p i, e = .offline who → s.jobs who = some job →
    s.broker.sessions = some p → (p i).Queues job.pub →
    job.pub.topic ≠ [] ∧ hasWildcard job.pub.topic = false

structure Stored (s : Threads cfg κ σ) : Prop where
  broker : s.broker.Stored
  conns : ∀ k, (s.conn k).Stored
  jobs : ∀ who job, s.jobs who = some job → 0 ∉ job.pub.topic ∧ ∀ op ∈ job.ops, op.Built

omit [DecidableEq σ] in
theorem Stored.goTo (h : s.Stored) {k : κ} {b : Broker cfg κ} {pc : ConnPc cfg} (hb : b.Stored)
    (hpc : pc.Stored) : (s.goTo k b pc).Stored where
  broker := hb
  conns j := by
    by_cases hj : j = k
    · subst hj
      rwa [goTo_conn]
    · have hconn : (s.goTo k b pc).conn j = s.conn j := Function.update_of_ne hj _ _
      rw [hconn]
      exact h.conns j
  jobs := h.jobs

theorem Stored.begin (h : s.Stored) {who : κ ⊕ σ} {env : Env κ} {pub : MqttPublish}
    (hnul : 0 ∉ pub.topic)
    (hpub : Retains s.broker.retains env.callocOk pub → Storable pub.topic pub.payload)
    (hrun : s.begin who env pub = some s') : s'.Stored := by
  obtain ⟨r, hlocked, rfl⟩ := Option.map_eq_some_iff.mp hrun
  obtain ⟨hb, hops⟩ := publishLocked_stored h.broker hpub hlocked
  refine ⟨hb, h.conns, fun who' job hjob ↦ ?_⟩
  by_cases hw : who' = who
  · subst hw
    simp only [Function.update_self] at hjob
    obtain ⟨ops, hr, rfl⟩ := Option.map_eq_some_iff.mp hjob
    exact ⟨hnul, hops ops hr⟩
  · simp only [Function.update_of_ne hw] at hjob
    exact h.jobs who' job hjob

theorem Stored.step [Inhabited κ] (hs : s.Stored) (hplain : s.StoresPlain e)
    (h : s.step e = some s') : s'.Stored := by
  cases step_cases h with
  | alloc k fd =>
      have halloc : (clientAlloc s.broker k fd).Stored := by
        refine hs.broker.updateClient fun _ ↦ ⟨fun hhas ↦ ?_, fun i huse ↦ ?_⟩
        · cases hhas
        · cases huse
      have hgoTo : (s.goTo k (clientAlloc s.broker k fd) .waiting).Stored := hs.goTo halloc trivial
      exact ⟨hgoTo.broker, hgoTo.conns, hgoTo.jobs⟩
  | notConnect k | leave k => exact hs.goTo hs.broker trivial
  | connect k env pkt conn hpc hcheck => exact hs.goTo hs.broker (connectCheck_ok hcheck)
  | reject k env pkt code hpc hcheck =>
      refine hs.goTo ?_ trivial
      rw [handleConnect, hcheck]
      exact (stored_rule k).close _ ((stored_rule k).reply env _ ⟨s.broker, []⟩ hs.broker)
  | late k env => exact hs.goTo ((stored_rule k).seen env.now _ hs.broker) trivial
  | publishPacket k env pkt b pub ack hpc hbegin =>
      obtain ⟨hb, hpub⟩ := publishBegin_stored hs.broker hbegin
      exact hs.goTo hb hpub
  | packet k env pkt h' hpc hbegin hrun =>
      exact hs.goTo ((stored_rule k).dispatch hrun hs.broker) trivial
  | tick k env =>
      exact hs.goTo (hs.broker.updateClient fun hc ↦ hc.inflightRetry env.now (env.sendOk k))
        trivial
  | next k env h' pc hjob hnext =>
      obtain ⟨hb, hpc⟩ := connStep_stored hs.broker (hs.conns k) hnext
      exact hs.goTo hb hpc
  | publish k env pub ack s' hpc hbegin =>
      have hpub : Storable pub.topic pub.payload := by
        have hk := hs.conns k
        rwa [hpc] at hk
      have hreply : (s.goTo k s.broker (.reply ack)).Stored := hs.goTo hs.broker trivial
      exact hreply.begin hpub.no_nul (fun _ ↦ hpub) hbegin
  | will k env s' hpc hwill hbegin =>
      have hpub := (hs.broker.clients k).will hwill
      have hclear : (s.goTo k s.broker .clearWill).Stored := hs.goTo hs.broker trivial
      exact hclear.begin hpub.no_nul (fun _ ↦ hpub) hbegin
  | foreign t env pub s' hjob hbegin =>
      obtain ⟨x, hx⟩ := hplain.entry t env pub rfl
      obtain ⟨hnul, hlen, hpayload⟩ := x.publish_fits hx
      refine hs.begin hnul (fun hret ↦ ?_) hbegin
      obtain ⟨hne, hwild⟩ := hplain.retained t env pub rfl hret
      exact ⟨⟨hne, hwild, hnul⟩, hlen, hpayload⟩
  | send who env pub op ops table gens hjob =>
      obtain ⟨hnul, hops⟩ := hs.jobs who _ hjob
      refine ⟨⟨hs.broker.retains, hs.broker.sessions, hs.broker.table,
        SendOp.run_stored hs.broker.clients (hops op List.mem_cons_self)⟩, hs.conns, ?_⟩
      intro who' job' hjob'
      by_cases hw : who' = who
      · subst hw
        simp only [Function.update_self] at hjob'
        cases hjob'
        exact ⟨hnul, fun op' hop' ↦ hops op' (List.mem_cons_of_mem op hop')⟩
      · simp only [Function.update_of_ne hw] at hjob'
        exact hs.jobs who' job' hjob'
  | offline who pub table gens hjob =>
      refine ⟨⟨hs.broker.retains, ?_, hs.broker.table, hs.broker.clients⟩, hs.conns, ?_⟩
      · refine sessionOfflinePublish_stored hs.broker.sessions fun p i hp hq ↦ ?_
        obtain ⟨hne, hwild⟩ := hplain.queued who _ p i rfl hjob hp hq
        exact ⟨hne, hwild, (hs.jobs who _ hjob).1⟩
      · intro who' job' hjob'
        by_cases hw : who' = who
        · subst hw
          simp at hjob'
        · simp only [Function.update_of_ne hw] at hjob'
          exact hs.jobs who' job' hjob'

end Threads

namespace Sample

end Sample

end MqttBroker
