import MqttBroker.Mesh.Qos2
import MqttBroker.Mesh.Message
import MqttBroker.Client.Stored
import MqttBroker.Client.Inbound

/-!
# The flags of what is sent first

The DUP and RETAIN bits of the frames in which a PUBLISH reaches the subscribers
for the first time, for each of the ways in which it comes into a broker.
-/

namespace MqttBroker

variable {cfg : Config} {κ : Type}

/-! ## The flags of a frame -/

/-- DUP and RETAIN are 0 in the first byte. -/
def PlainFlags (frame : Bytes) : Prop := frame.headD 0 &&& 0x09 = 0

instance : DecidablePred PlainFlags := fun _ ↦ inferInstanceAs (Decidable (_ = _))

theorem u8_or_and (x y z : UInt8) : (x ||| y) &&& z = x &&& z ||| y &&& z := by
  apply UInt8.toBitVec_inj.1
  simp only [UInt8.toBitVec_and, UInt8.toBitVec_or]
  exact BitVec.and_or_distrib_right

theorem u8_or_eq_zero {x y : UInt8} : x ||| y = 0 ↔ x = 0 ∧ y = 0 := by
  simp only [← UInt8.toNat_inj, UInt8.toNat_or]
  exact Nat.or_eq_zero_iff

/-- The two bits of a header come from `dup` and `retain`. -/
theorem publishHeader_flags {pub : MqttPublish} (hq : pub.qos ≤ 2) :
    publishHeader pub &&& 0x09 = 0 ↔ pub.dup &&& 1 = 0 ∧ pub.retain &&& 0x09 = 0 := by
  have hdup : ((pub.dup &&& 1) <<< 3) &&& 0x09 = 0 ↔ pub.dup &&& 1 = 0 := by
    rcases u8_and_one pub.dup with h | h <;> rw [h] <;> decide
  have hqos : (pub.qos <<< 1) &&& 0x09 = 0 := by
    rcases u8_le_two hq with h | h | h <;> rw [h] <;> decide
  have htype : PacketType.publish &&& 0x09 = 0 := by decide
  rw [publishHeader, u8_or_and, u8_or_and, u8_or_and, u8_or_eq_zero, u8_or_eq_zero, u8_or_eq_zero,
    hdup]
  simp [hqos, htype]

theorem publishFrame_flags {pub : MqttPublish} {frame : Bytes} (h : publishFrame pub = some frame) :
    PlainFlags frame ↔ pub.dup &&& 1 = 0 ∧ pub.retain &&& 0x09 = 0 := by
  have hs := sendable_of_build h
  obtain ⟨enc, -, hframe⟩ := packetBuildPublish_eq hs
  obtain rfl := Option.some.inj (h.symm.trans hframe)
  exact publishHeader_flags hs.qos_le

theorem publishFrame_of_sendable {pub : MqttPublish} (h : pub.Sendable) :
    ∃ frame, publishFrame pub = some frame := by
  obtain ⟨enc, -, hframe⟩ := packetBuildPublish_eq h
  exact ⟨_, hframe⟩

/-! ## The frames of `topic_publish` -/

section

variable [DecidableEq κ]

/-- Every frame is the message with RETAIN cleared. -/
theorem topicFanOut_frames {env : Env κ} {t : TopicTable cfg κ} {clients : κ → Client}
    {pub : MqttPublish} {r : (κ → Client) × List (κ × Bytes)}
    (h : topicFanOut env t clients pub = some r) : ∀ s ∈ r.2, ∃ qos id,
      publishFrame { pub with retain := 0, qos := qos, packetId := id } = some s.2 := by
  unfold topicFanOut at h
  split_ifs at h
  · simp only [topicPublishQos0, Option.bind_eq_bind, Option.bind_eq_some_iff] at h
    obtain ⟨slots, -, h⟩ := h
    split at h
    · cases h
      simp
    · next frame hframe =>
        cases h
        intro s hs
        obtain ⟨c, -, rfl⟩ := List.mem_map.mp hs
        exact ⟨pub.qos, 0, hframe⟩
  · simp only [topicPublishQos, Option.bind_eq_bind, Option.bind_eq_some_iff] at h
    obtain ⟨slots, -, h⟩ := h
    cases h
    have hfold : ∀ (targets : List (DeliveryTarget κ)) (r : (κ → Client) × List (κ × Bytes)),
        (∀ s ∈ r.2, ∃ qos id,
          publishFrame { pub with retain := 0, qos := qos, packetId := id } = some s.2) →
        ∀ s ∈ (targets.foldl (deliverQos env pub) r).2, ∃ qos id,
          publishFrame { pub with retain := 0, qos := qos, packetId := id } = some s.2 := by
      intro targets
      induction targets with
      | nil => exact fun _ hr ↦ hr
      | cons d targets ih =>
          intro r hr
          refine ih _ fun s hs ↦ ?_
          unfold deliverQos at hs
          dsimp only at hs
          split at hs
          · exact hr s hs
          · next buf hbuf =>
              rcases List.mem_append.mp hs with hs | hs
              · exact hr s hs
              · obtain rfl := List.mem_singleton.mp hs
                exact ⟨d.qos, d.packetId, hbuf⟩
    exact hfold _ _ (by simp)

theorem topicPublishInternal_frames {env : Env κ} {b : Broker cfg κ} {pub : MqttPublish}
    {propagate : Bool} {r : Published cfg κ}
    (h : topicPublishInternal env b pub propagate = some r) : ∀ s ∈ r.sent, ∃ qos id,
      publishFrame { pub with retain := 0, qos := qos, packetId := id } = some s.2 := by
  unfold topicPublishInternal at h
  split at h
  · cases h
    simp
  · obtain ⟨_, hrun, rfl⟩ := Option.map_eq_some_iff.mp h
    exact topicFanOut_frames hrun

end

/-! ## The frames of the offline queues -/

/-- A message was put into an offline queue. -/
def Enqueued (pool pool' : SessionPool cfg) (msg : SessionMsg) : Prop :=
  ∃ sessions sessions' i q, pool = some sessions ∧ pool' = some sessions' ∧
    ((sessions i).queue q).inUse = false ∧ ((sessions' i).queue q).inUse = true ∧
    (sessions' i).queue q = msg

/-- The queue of an offline session takes the message. -/
def QueuesOffline (pool : SessionPool cfg) (pub : MqttPublish) : Prop :=
  ∃ sessions i, pool = some sessions ∧ (sessions i).Queues pub

namespace Session

variable {s : Session} {pub : MqttPublish}

/-- The entry that the queue gets. -/
theorem offlinePublishOne_of_takes {matchFn : CStr → CStr → Bool} {j : Fin SESSION_SUB_MAX}
    (h : s.Takes pub matchFn j) : ∃ qos id next, qos ≤ pub.qos ∧ id ≠ 0 ∧
      (s.offlinePublishOne pub matchFn).1 = ({ s with nextPacketId := next }.enqueue
        { pub with qos := qos, packetId := id } id).1 := by
  have hmin : (if pub.qos < s.subQos j then pub.qos else s.subQos j) ≤ pub.qos ∧
      0 < (if pub.qos < s.subQos j then pub.qos else s.subQos j) := by
    split_ifs with hlt
    · exact ⟨UInt8.le_refl _, h.pub_qos⟩
    · exact ⟨UInt8.not_lt.mp hlt, h.sub_qos⟩
  have hid : (if s.nextPacketId = 0 then (1 : UInt16) else s.nextPacketId) ≠ 0 := by
    split_ifs with hzero
    · decide
    · exact hzero
  refine ⟨_, _, (if s.nextPacketId = 0 then 1 else s.nextPacketId) + 1, hmin.1, hid, ?_⟩
  unfold offlinePublishOne
  rw [h.inUse, h.offline, h.first]
  simp [hmin.2]

/-- What the queue has that it did not have before is the message, with RETAIN left out. -/
theorem offlinePublishOne_new {q : Fin SESSION_QUEUE_MAX} (hfree : (s.queue q).inUse = false)
    (huse : ((s.offlinePublishOne pub topicMatch).1.queue q).inUse = true) :
    s.Queues pub ∧ ∃ qos id, qos ≤ pub.qos ∧ id ≠ 0 ∧
      (s.offlinePublishOne pub topicMatch).1.queue q = ⟨pub.topic.take (MQTT_TOPIC_MAX - 1),
        pub.payload.take MQTT_PAYLOAD_MAX, qos, id, pub.dup, true⟩ := by
  rcases s.offlinePublishOne_cases pub topicMatch with heq | ⟨j, htakes, -⟩
  · rw [heq, hfree] at huse
    cases huse
  · obtain ⟨qos, id, next, hle, hid, heq⟩ := offlinePublishOne_of_takes htakes
    refine ⟨⟨⟨j, htakes⟩, q, hfree⟩, qos, id, hle, hid, ?_⟩
    rw [heq] at huse ⊢
    rcases ({ s with nextPacketId := next } : Session).enqueue_cases
      { pub with qos := qos, packetId := id } id with ⟨k, -, henq⟩ | ⟨-, henq⟩
    · rw [henq] at huse ⊢
      by_cases hq : q = k
      · subst hq
        exact Function.update_self _ _ _
      · dsimp only at huse
        rw [Function.update_of_ne hq, hfree] at huse
        cases huse
    · rw [henq] at huse
      dsimp only at huse
      rw [hfree] at huse
      cases huse

theorem Queues.exists_new (h : s.Queues pub) : ∃ q, (s.queue q).inUse = false ∧
    ((s.offlinePublishOne pub topicMatch).1.queue q).inUse = true := by
  obtain ⟨⟨j, htakes⟩, q, hfree⟩ := h
  obtain ⟨qos, id, next, -, -, heq⟩ := offlinePublishOne_of_takes htakes
  rw [heq]
  rcases ({ s with nextPacketId := next } : Session).enqueue_cases
    { pub with qos := qos, packetId := id } id with ⟨k, hk, henq⟩ | ⟨hfull, -⟩
  · exact ⟨k, hk, by rw [henq]; simp⟩
  · have hq : (s.queue q).inUse = true := hfull q
    rw [hfree] at hq
    cases hq

end Session

/-- The frame in which a queue entry is drained. -/
theorem drainEntry_frames (msg : SessionMsg) (now : ℤ) (sendOk : Bool) (c : Client) (frame : Bytes) :
    frame ∈ (Session.drainEntry msg now sendOk (c, [])).2 ↔
      publishFrame msg.toPublish = some frame := by
  unfold Session.drainEntry publishFrame
  dsimp only
  cases packetBuildPublish msg.toPublish (MQTT_MAX_PACKET_SIZE + 8) with
  | none => simp
  | some buf => simp [eq_comm]

theorem sessionOfflinePublish_enqueued {pool : SessionPool cfg} {pub : MqttPublish}
    {msg : SessionMsg}
    (h : Enqueued pool (sessionOfflinePublish pool pub topicMatch).1 msg) :
    QueuesOffline pool pub ∧ msg.dup = pub.dup := by
  obtain ⟨sessions, sessions', i, q, rfl, hpool, hfree, huse, rfl⟩ := h
  unfold sessionOfflinePublish at hpool
  split_ifs at hpool with hq
  · cases hpool
    rw [hfree] at huse
    cases huse
  · cases hpool
    obtain ⟨hqueues, qos, id, -, -, heq⟩ := Session.offlinePublishOne_new hfree huse
    exact ⟨⟨sessions, i, rfl, hqueues⟩, by rw [heq]⟩

/-- A message that is queued can be drained. -/
theorem exists_enqueued {pool : SessionPool cfg} {pub : MqttPublish} (hfits : pub.Fits)
    (htopic : PublishTopic pub.topic) (hqos : pub.qos ≤ 2) (h : QueuesOffline pool pub) :
    ∃ msg frame, Enqueued pool (sessionOfflinePublish pool pub topicMatch).1 msg ∧
      publishFrame msg.toPublish = some frame := by
  obtain ⟨sessions, i, rfl, hqueues⟩ := h
  obtain ⟨q, hfree, huse⟩ := hqueues.exists_new
  obtain ⟨-, qos, id, hle, hid, heq⟩ := Session.offlinePublishOne_new hfree huse
  have hpos : pub.qos ≠ 0 := by
    obtain ⟨⟨j, htakes⟩, -⟩ := hqueues
    rintro hzero
    have := htakes.pub_qos
    rw [hzero] at this
    exact absurd this (by decide)
  have hlen : pub.topic.take (MQTT_TOPIC_MAX - 1) = pub.topic :=
    List.take_of_length_le (Nat.le_pred_of_lt hfits.1)
  obtain ⟨frame, hframe⟩ := @publishFrame_of_sendable
    (((sessions i).offlinePublishOne pub topicMatch).1.queue q).toPublish (by
      rw [heq]
      unfold SessionMsg.toPublish
      dsimp only
      rw [hlen, hlen]
      exact ⟨hfits.1, htopic.1, htopic.2, UInt8.le_trans hle hqos, fun _ ↦ hid,
        le_trans (List.length_take_le _ _) (le_refl _)⟩)
  refine ⟨_, frame, ⟨sessions, fun i ↦ ((sessions i).offlinePublishOne pub topicMatch).1, i, q, rfl,
    ?_, hfree, huse, rfl⟩, hframe⟩
  unfold sessionOfflinePublish
  rw [if_neg hpos]

/-! ## The frames of mesh-ingress clients -/

/-- A mesh-ingress client gets the message. -/
def MeshHeard (m : MeshClients) (pub : MqttPublish) : Prop :=
  PublishTopic pub.topic ∧ ∃ i, MeshSubscribed m pub.topic i

section

variable {env : MeshEnv} {t : TopicTable cfg κ} {ref : PubRef} {m : MeshClients} {i : MeshSlot}

theorem deliver_flags {c : MeshClient} {pub out : MqttPublish} {frame : Bytes}
    (h : c.offered pub = some out) (hframe : publishFrame out = some frame) :
    PlainFlags frame ↔ pub.dup &&& 1 = 0 ∧ pub.retain &&& 0x09 = 0 := by
  obtain ⟨-, j, -, -, rfl⟩ := MeshClient.offered_eq_some h
  obtain ⟨qos, id, heq, -⟩ := c.deliver_eq pub j
  rw [publishFrame_flags hframe, heq]

/-- What is sent to a client is the message that was passed. -/
theorem publishRemote_sent {frame : Bytes} {ok : Bool}
    (h : .send i frame ok ∈ (publishRemote env t ref m).2) : MeshHeard m (ref.deref m) ∧
      (PlainFlags frame ↔ (ref.deref m).dup &&& 1 = 0 ∧ (ref.deref m).retain &&& 0x09 = 0) := by
  have hsent : ∀ {pub}, ServedWith env m (publishRemote env t ref m).2 i pub →
      ∃ out, (m i).offered pub = some out ∧ publishFrame out = some frame := fun hserved ↦
    Option.bind_eq_some_iff.mp ((hserved.send frame ok).mp h).2
  have htopic : ∀ {pub out}, (m i).offered pub = some out → publishFrame out = some frame →
      PublishTopic pub.topic := by
    intro pub out hout hframe
    obtain ⟨-, j, -, -, rfl⟩ := MeshClient.offered_eq_some hout
    obtain ⟨qos, id, heq, -⟩ := (m i).deliver_eq pub j
    have := publishTopic_of_frame hframe
    rwa [heq] at this
  by_cases hcleared : ref.Cleared env m i
  · obtain ⟨out, hout, hframe⟩ := hsent ((publishRemote_served env t ref m i).1 hcleared)
    exact absurd rfl (htopic hout hframe).1
  · obtain ⟨out, hout, hframe⟩ := hsent ((publishRemote_served env t ref m i).2 hcleared)
    have hsub := (MeshClient.offered_isSome_iff m i (ref.deref m)).mp (by rw [hout]; rfl)
    exact ⟨⟨htopic hout hframe, i, hsub⟩, deliver_flags hout hframe⟩

/-- The first client with a matching subscription is sent the message. -/
theorem exists_publishRemote_sent (env : MeshEnv) (t : TopicTable cfg κ) {ref : PubRef}
    (hparsed : MeshParsed m) (hfits : (ref.deref m).Fits) (h : MeshHeard m (ref.deref m)) :
    ∃ i frame ok, .send i frame ok ∈ (publishRemote env t ref m).2 := by
  obtain ⟨htopic, hany⟩ := h
  obtain ⟨i, hsub, hfirst⟩ := WellFounded.has_min (α := MeshSlot) wellFounded_lt
    {i | MeshSubscribed m (ref.deref m).topic i} hany
  have hcleared : ¬ ref.Cleared env m i := by
    cases ref with
    | value pub => exact id
    | qos2In k j =>
        rintro ⟨hlt, out, hout, -⟩
        refine hfirst k ?_ hlt
        exact (MeshClient.offered_isSome_iff m k _).mp (Option.isSome_iff_exists.mpr ⟨out, hout⟩)
  obtain ⟨out, hout⟩ := Option.isSome_iff_exists.mp ((MeshClient.offered_isSome_iff m i _).mpr hsub)
  obtain ⟨frame, hframe⟩ : ∃ frame, publishFrame out = some frame := by
    obtain ⟨-, j, huse, -, rfl⟩ := MeshClient.offered_eq_some hout
    obtain ⟨qos, id, heq, -, -, hle, hid⟩ := (m i).deliver_eq (ref.deref m) j
    rw [heq]
    exact publishFrame_of_sendable ⟨hfits.1, htopic.1, htopic.2,
      UInt8.le_trans hle ((hparsed i).qos_le j huse), hid, hfits.2⟩
  exact ⟨i, frame, env.sendOk i, (((publishRemote_served env t ref m i).2 hcleared).send _ _).mpr
    ⟨rfl, by rw [hout]; exact hframe⟩⟩

end

/-! ## Every way in -/

/-- How a PUBLISH comes into a broker: a packet of an MQTT client or of a
mesh-ingress client, or a frame of a peer. -/
inductive Incoming where
  | client (pkt : MqttPacket)
  | ingress (i : MeshSlot) (pkt : MqttPacket)
  | peer (buf : Bytes)

section

variable [DecidableEq κ] {env : Env κ} {menv : MeshEnv} {b : Broker cfg κ} {m : MeshClients}
  {pub : MqttPublish} {incoming : Incoming}

/-- The message that is handed over. -/
inductive Enters (m : MeshClients) : Incoming → MqttPublish → Prop where
  | client {pkt : MqttPacket} {pub : MqttPublish} (h : acceptedPublish pkt = some pub) :
      Enters m (.client pkt) pub
  | ingress {i : MeshSlot} {pkt : MqttPacket} {ref : PubRef} (huse : (m i).inUse = true)
      (h : ingressCall m i pkt = some ref) : Enters m (.ingress i pkt) (ref.deref m)
  | peer {buf : Bytes} {msg : P2pPublishMsg} (h : parsePublishFrame buf = some msg) :
      Enters m (.peer buf) msg.toPublish

theorem ingressCall_fits (hparsed : MeshParsed m) {i : MeshSlot} {pkt : MqttPacket} {ref : PubRef}
    (h : ingressCall m i pkt = some ref) : (ref.deref m).Fits := by
  unfold ingressCall at h
  split_ifs at h
  · split at h
    · next pub hparse =>
        obtain ⟨htopic, hpayload, -⟩ := packetParsePublish_fits hparse
        split_ifs at h
        cases h
        exact ⟨htopic, hpayload⟩
    · cases h
  · split at h
    · next j hfind =>
        have huse : ((m i).qos2In j).inUse = true := by
          have hfound := List.find?_some hfind
          simp only [Bool.and_eq_true] at hfound
          exact hfound.1
        split_ifs at h
        cases h
        exact ((hparsed i).fits j huse).1
    · cases h

theorem toPublish_fits {buf : Bytes} {msg : P2pPublishMsg} (h : parsePublishFrame buf = some msg) :
    msg.toPublish.Fits :=
  ⟨lt_of_le_of_lt (List.length_take_le _ _) (by decide), (parsePublishFrame_fits h).2⟩

/-- What `topic_publish_internal` sends, or what a queue that it fills will send. -/
inductive TopicFrame (env : Env κ) (b : Broker cfg κ) (pub : MqttPublish) (propagate : Bool) :
    Bytes → Prop where
  | sent {r : Published cfg κ} (h : topicPublishInternal env b pub propagate = some r)
      {s : κ × Bytes} (hs : s ∈ r.sent) : TopicFrame env b pub propagate s.2
  | drained {r : Published cfg κ} (h : topicPublishInternal env b pub propagate = some r)
      {msg : SessionMsg} (hmsg : Enqueued b.sessions r.broker.sessions msg) {now : ℤ}
      {sendOk : Bool} {c : Client} {frame : Bytes}
      (hframe : frame ∈ (Session.drainEntry msg now sendOk (c, [])).2) :
      TopicFrame env b pub propagate frame

/-- The frames in which the subscribers get the message for the first time. -/
inductive FirstFrame (env : Env κ) (menv : MeshEnv) (b : Broker cfg κ) (m : MeshClients) :
    Incoming → Bytes → Prop where
  | client {pkt : MqttPacket} {pub : MqttPublish} (h : acceptedPublish pkt = some pub)
      {frame : Bytes} (hframe : TopicFrame env b pub true frame) :
      FirstFrame env menv b m (.client pkt) frame
  | ingress {i : MeshSlot} {pkt : MqttPacket} {ref : PubRef} (huse : (m i).inUse = true)
      (h : ingressCall m i pkt = some ref) {k : MeshSlot} {frame : Bytes} {ok : Bool}
      (hframe : .send k frame ok ∈ (meshPublishFromIngress menv b.table ref m).2) :
      FirstFrame env menv b m (.ingress i pkt) frame
  | peer {buf : Bytes} {msg : P2pPublishMsg} (h : parsePublishFrame buf = some msg)
      {frame : Bytes} (hframe : TopicFrame env b msg.toPublish false frame) :
      FirstFrame env menv b m (.peer buf) frame
  | peerIngress {buf : Bytes} {msg : P2pPublishMsg} (h : parsePublishFrame buf = some msg)
      {k : MeshSlot} {frame : Bytes} {ok : Bool}
      (hframe : .send k frame ok ∈ (publishRemote menv b.table (.value msg.toPublish) m).2) :
      FirstFrame env menv b m (.peer buf) frame

/-- Somebody gets the message from `topic_publish`, now or from a queue. -/
def TopicHeard (env : Env κ) (b : Broker cfg κ) (pub : MqttPublish) : Prop :=
  StoreReady b env pub ∧ ((∃ c, Subscribed b.table pub.topic c) ∨ QueuesOffline b.sessions pub)

/-- The flags that are passed on are 0, or nobody gets the message. -/
def NoFlags (env : Env κ) (b : Broker cfg κ) (m : MeshClients) (pub : MqttPublish) :
    Incoming → Prop
  | .client _ => pub.dup &&& 1 = 0 ∨ ¬ TopicHeard env b pub
  | .ingress _ _ => pub.dup &&& 1 = 0 ∧ pub.retain &&& 0x09 = 0 ∨ ¬ MeshHeard m pub
  | .peer _ => pub.retain &&& 0x09 = 0 ∨ ¬ MeshHeard m pub

theorem topicPublishInternal_sessions {propagate : Bool} {r : Published cfg κ}
    (h : topicPublishInternal env b pub propagate = some r) :
    r.sent = [] ∧ r.broker = b ∨ StoreReady b env pub ∧
      r.broker.sessions = (sessionOfflinePublish b.sessions pub topicMatch).1 := by
  have hrc := topicPublishInternal_rc h
  unfold topicPublishInternal at h
  split at h
  · cases h
    exact .inl ⟨rfl, rfl⟩
  · obtain ⟨_, -, rfl⟩ := Option.map_eq_some_iff.mp h
    exact .inr ⟨hrc.mp rfl, rfl⟩

theorem not_enqueued_self {pool : SessionPool cfg} {msg : SessionMsg} : ¬ Enqueued pool pool msg := by
  rintro ⟨sessions, sessions', i, q, rfl, hsame, hfree, huse, -⟩
  cases hsame
  rw [hfree] at huse
  cases huse

theorem topicFrame_flags {propagate : Bool} {frame : Bytes}
    (h : TopicFrame env b pub propagate frame) : PlainFlags frame ↔ pub.dup &&& 1 = 0 := by
  cases h with
  | sent h hs =>
      obtain ⟨qos, id, hframe⟩ := topicPublishInternal_frames h _ hs
      rw [publishFrame_flags hframe]
      exact and_iff_left (by decide : (0 : UInt8) &&& 0x09 = 0)
  | drained h hmsg hframe =>
      rw [publishFrame_flags ((drainEntry_frames _ _ _ _ _).mp hframe)]
      rcases topicPublishInternal_sessions h with ⟨-, hsame⟩ | ⟨-, hsessions⟩
      · rw [hsame] at hmsg
        exact absurd hmsg not_enqueued_self
      · rw [hsessions] at hmsg
        obtain ⟨-, hdup⟩ := sessionOfflinePublish_enqueued hmsg
        unfold SessionMsg.toPublish
        rw [hdup]
        exact and_iff_left (by decide : (0 : UInt8) &&& 0x09 = 0)

section

variable (hlinked : b.table.IsLinked) (hfits : pub.Fits) (htopic : PublishTopic pub.topic)
  (hqos : pub.qos ≤ 2)

include hlinked hfits htopic hqos

theorem heard_of_topicFrame {frame : Bytes} (h : TopicFrame env b pub true frame) :
    TopicHeard env b pub := by
  cases h with
  | sent h hs =>
      rcases topicPublishInternal_sessions h with ⟨hnone, -⟩ | ⟨hready, -⟩
      · rw [hnone] at hs
        cases hs
      · obtain ⟨r', hr', hd⟩ := topicPublish_of_isLinked hlinked env hfits htopic.1 htopic.2 hqos
        obtain rfl := Option.some.inj (hr'.symm.trans h)
        have hd := hd ((topicPublishInternal_rc h).mpr hready)
        exact ⟨hready, .inl ⟨_, (hd.2.1 _).mp (List.mem_map_of_mem hs)⟩⟩
  | drained h hmsg _ =>
      rcases topicPublishInternal_sessions h with ⟨-, hsame⟩ | ⟨hready, hsessions⟩
      · rw [hsame] at hmsg
        exact absurd hmsg not_enqueued_self
      · rw [hsessions] at hmsg
        exact ⟨hready, .inr (sessionOfflinePublish_enqueued hmsg).1⟩

theorem exists_topicFrame (h : TopicHeard env b pub) : ∃ frame, TopicFrame env b pub true frame := by
  obtain ⟨hready, hsomebody⟩ := h
  obtain ⟨r, hr, hd⟩ := topicPublish_of_isLinked hlinked env hfits htopic.1 htopic.2 hqos
  have hrc := (topicPublishInternal_rc hr).mpr hready
  rcases hsomebody with ⟨c, hsub⟩ | hqueues
  · obtain ⟨s, hs, -⟩ := List.mem_map.mp (((hd hrc).2.1 c).mpr hsub)
    exact ⟨s.2, .sent hr hs⟩
  · obtain ⟨msg, frame, hmsg, hframe⟩ := exists_enqueued hfits htopic hqos hqueues
    have hsessions : r.broker.sessions = (sessionOfflinePublish b.sessions pub topicMatch).1 := by
      have h := hr
      unfold topicPublish topicPublishInternal at h
      split at h
      · cases h
        cases hrc
      · obtain ⟨_, -, rfl⟩ := Option.map_eq_some_iff.mp h
        rfl
    rw [← hsessions] at hmsg
    exact ⟨frame, .drained hr hmsg ((drainEntry_frames msg 0 true default frame).mpr hframe)⟩

end

/-- Every first frame has DUP 0 and RETAIN 0 exactly if the flags that are passed
on are 0, or nobody gets the message. -/
theorem first_frames_plain_iff [Inhabited κ] (h : Listening cfg κ b.table m)
    (henters : Enters m incoming pub) :
    (∀ frame, FirstFrame env menv b m incoming frame → PlainFlags frame) ↔
      NoFlags env b m pub incoming := by
  have hiff : ∀ {frames : Bytes → Prop} {plain heard : Prop},
      (∀ frame, frames frame → heard ∧ (PlainFlags frame ↔ plain)) →
      (heard → ∃ frame, frames frame) →
      ((∀ frame, frames frame → PlainFlags frame) ↔ plain ∨ ¬ heard) := by
    intro frames plain heard hframes hexists
    constructor
    · intro hall
      by_cases hheard : heard
      · obtain ⟨frame, hframe⟩ := hexists hheard
        exact .inl ((hframes frame hframe).2.mp (hall frame hframe))
      · exact .inr hheard
    · rintro (hplain | hno) frame hframe
      · exact (hframes frame hframe).2.mpr hplain
      · exact absurd (hframes frame hframe).1 hno
  cases henters with
  | @client pkt pub hacc =>
      obtain ⟨-, -, -, -, hne, hplain, -⟩ := acceptedPublish_eq_some hacc
      obtain ⟨hfits, hqos⟩ := acceptedPublish_fits hacc
      have htopic : PublishTopic pub.topic := ⟨hne, hplain⟩
      refine hiff (fun frame hframe ↦ ?_) fun hheard ↦ ?_
      · cases hframe with
        | client hacc' hframe =>
            obtain rfl := Option.some.inj (hacc.symm.trans hacc')
            exact ⟨heard_of_topicFrame h.isLinked hfits htopic hqos hframe, topicFrame_flags hframe⟩
      · obtain ⟨frame, hframe⟩ := exists_topicFrame h.isLinked hfits htopic hqos hheard
        exact ⟨frame, .client hacc hframe⟩
  | @ingress i pkt ref huse hcall =>
      have hsends : ∀ {k frame ok}, .send k frame ok ∈ (meshPublishFromIngress menv b.table ref m).2 ↔
          .send k frame ok ∈ (publishRemote menv b.table ref m).2 := by
        intro k frame ok
        unfold meshPublishFromIngress
        split_ifs <;> simp
      refine hiff (fun frame hframe ↦ ?_) fun hheard ↦ ?_
      · cases hframe with
        | ingress _ hcall' hframe =>
            obtain rfl := Option.some.inj (hcall.symm.trans hcall')
            exact publishRemote_sent (hsends.mp hframe)
      · obtain ⟨k, frame, ok, hframe⟩ :=
          exists_publishRemote_sent menv b.table h.parsed (ingressCall_fits h.parsed hcall) hheard
        exact ⟨frame, .ingress huse hcall (hsends.mpr hframe)⟩
  | @peer buf msg hparse =>
      have hmesh : ∀ {k frame ok},
          .send k frame ok ∈ (publishRemote menv b.table (.value msg.toPublish) m).2 →
            MeshHeard m msg.toPublish ∧ (PlainFlags frame ↔ msg.toPublish.retain &&& 0x09 = 0) := by
        intro k frame ok hframe
        obtain ⟨hheard, hflags⟩ := publishRemote_sent hframe
        -- `handle_publish` leaves DUP 0
        exact ⟨hheard, hflags.trans (and_iff_right (by decide : (0 : UInt8) &&& 1 = 0))⟩
      constructor
      · intro hall
        by_cases hheard : MeshHeard m msg.toPublish
        · have hfits : (PubRef.deref m (.value msg.toPublish)).Fits := toPublish_fits hparse
          obtain ⟨k, frame, ok, hframe⟩ :=
            exists_publishRemote_sent menv b.table h.parsed hfits hheard
          exact .inl ((hmesh hframe).2.mp (hall frame (.peerIngress hparse hframe)))
        · exact .inr hheard
      · intro hcond frame hframe
        cases hframe with
        | peer hparse' hframe =>
            exact (topicFrame_flags hframe).mpr (by decide : (0 : UInt8) &&& 1 = 0)
        | peerIngress hparse' hframe =>
            obtain rfl := Option.some.inj (hparse.symm.trans hparse')
            obtain ⟨hheard, hflags⟩ := hmesh hframe
            exact hflags.mpr (hcond.resolve_right fun hno ↦ hno hheard)

end

/-! ## One subscriber -/

/-- A QoS 1 PUBLISH on `a` with DUP set. -/
def dupToA : MqttPacket := ⟨0x3A, 6, writeStr [0x61] ++ writeU16 7 ++ [0x70]⟩

/-- The message in it. -/
def dupPub : MqttPublish := ⟨[0x61], [0x70], 1, 0, 1, 7⟩

/-- Client 0 has subscribed to `a`. -/
def subscribedToA : Broker Config.posix ℕ :=
  ⟨((topicInit Config.posix ℕ).topicSubscribe 0 [0x61] 1).1, none, fun _ ↦ clientAllocated 3, none⟩

/-- No mesh-ingress client is connected. -/
def noIngress : MeshClients := fun _ ↦ meshZeroed 0 false

theorem subscribedToA_listening : Listening Config.posix ℕ subscribedToA.table noIngress :=
  .topic .start (.subscribe 0 [0x61] 1) (by decide : (1 : UInt8) ≤ 2) rfl

/-- Every send succeeds. -/
def sendsAll : Env ℕ := ⟨0, true, fun _ ↦ true⟩

/-- The statement at this packet. -/
theorem first_frames_plain_iff_dup :
    (∀ frame, FirstFrame sendsAll ⟨0, fun _ ↦ true⟩ subscribedToA noIngress (.client dupToA) frame →
      PlainFlags frame) ↔ NoFlags sendsAll subscribedToA noIngress dupPub (.client dupToA) :=
  first_frames_plain_iff subscribedToA_listening (.client (by decide +kernel))

/-- The DUP of the publisher reaches a subscriber that gets the message for the first time. -/
theorem dup_passed_on : Listening Config.posix ℕ subscribedToA.table noIngress ∧
    acceptedPublish dupToA = some dupPub ∧
    ∃ frame, FirstFrame sendsAll ⟨0, fun _ ↦ true⟩ subscribedToA noIngress
      (.client dupToA) frame ∧ frame.headD 0 = 0x3A ∧ ¬ PlainFlags frame := by
  have hacc : acceptedPublish dupToA = some dupPub := by decide +kernel
  let frame : Bytes := 0x3A :: 6 :: (writeStr [0x61] ++ writeU16 1 ++ [0x70])
  have hrun : ((topicPublish sendsAll subscribedToA dupPub).map
      Published.sent) = some [(0, frame)] := by
    decide +kernel
  obtain ⟨r, hr, hsent⟩ := Option.map_eq_some_iff.mp hrun
  refine ⟨subscribedToA_listening, hacc, frame, .client hacc (.sent (s := (0, frame)) hr ?_), rfl, by decide⟩
  rw [hsent]
  exact List.mem_singleton.mpr rfl

end MqttBroker
