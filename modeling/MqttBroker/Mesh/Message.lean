import MqttBroker.Packet

/-!
# P2P messages

`p2p_publish_msg_t` of `p2p.h` and its frame on the wire, as `p2p_peer.c`
builds and parses it.  The header is copied as it lies in memory, here with
the low byte first.
-/

namespace MqttBroker

def P2P_NODE_ID_LEN : ℕ := 16

abbrev NodeId := Fin P2P_NODE_ID_LEN → UInt8

instance NodeId.lawfulBEq : LawfulBEq NodeId := inferInstance

def NodeId.bytes (id : NodeId) : List ℕ := List.ofFn fun i ↦ (id i).toNat

/-- `id_cmp(a, b) < 0` -/
def NodeId.before (a b : NodeId) : Bool := a.bytes < b.bytes

theorem NodeId.before_comm {a b : NodeId} (h : a ≠ b) : b.before a = !a.before b := by
  have hne : a.bytes ≠ b.bytes := fun heq ↦ h <| funext fun i ↦
    UInt8.toNat_inj.mp (congrFun (List.ofFn_injective heq) i)
  have hiff : b.bytes < a.bytes ↔ ¬ a.bytes < b.bytes :=
    ⟨fun hlt ↦ lt_asymm hlt, fun hlt ↦ lt_of_le_of_ne (not_lt.mp hlt) hne.symm⟩
  simp only [before, hiff, decide_not]

/-- `p2p_publish_msg_t`; `payload` is the first `payload_len` bytes. -/
structure P2pPublishMsg where
  originId : NodeId
  seq : UInt16
  topic : CStr
  payload : Bytes
  qos : UInt8
  retain : UInt8
  deriving DecidableEq

/-- `sizeof(p2p_publish_wire_hdr_t)` -/
def P2P_PUBLISH_WIRE_HDR : ℕ := P2P_NODE_ID_LEN + 8

def P2P_PUBLISH_FRAME_MAX : ℕ := P2P_PUBLISH_WIRE_HDR + MQTT_TOPIC_MAX + MQTT_PAYLOAD_MAX

/-- The string in a buffer. -/
def cstr (buf : Bytes) : CStr := buf.takeWhile (· ≠ 0)

theorem nul_not_mem_cstr (buf : Bytes) : 0 ∉ cstr buf := fun h ↦ by
  simpa using List.mem_takeWhile_imp h

theorem cstr_eq_self {s : CStr} (h : 0 ∉ s) : cstr s = s := by
  rw [cstr, List.takeWhile_eq_self_iff]
  intro c hc
  have hne : c ≠ 0 := fun hc0 ↦ h (hc0 ▸ hc)
  simpa using hne

def hostU16 (v : UInt16) : Bytes := [(v &&& 0xFF).toUInt8, (v >>> 8).toUInt8]

def ofHostU16 (lo hi : UInt8) : UInt16 := hi.toUInt16 <<< 8 ||| lo.toUInt16

theorem ofHostU16_hostU16 (v : UInt16) :
    ofHostU16 (v &&& 0xFF).toUInt8 (v >>> 8).toUInt8 = v := u16_of_bytes v

/-- `build_publish_frame`. -/
def buildPublishFrame (msg : P2pPublishMsg) : Option Bytes :=
  if MQTT_TOPIC_MAX ≤ msg.topic.length ∨ msg.topic = [] ∨
      MQTT_PAYLOAD_MAX < msg.payload.length then none
  else
    let out := List.ofFn msg.originId ++ (hostU16 msg.seq ++
      hostU16 (UInt16.ofNat msg.topic.length) ++ hostU16 (UInt16.ofNat msg.payload.length) ++
      [msg.qos, msg.retain]) ++ msg.topic ++ msg.payload
    if P2P_PUBLISH_FRAME_MAX < out.length then none else some out

/-- `parse_publish_frame`. -/
def parsePublishFrame (buf : Bytes) : Option P2pPublishMsg :=
  match buf.drop P2P_NODE_ID_LEN with
  | s₀ :: s₁ :: t₀ :: t₁ :: p₀ :: p₁ :: qos :: retain :: rest =>
      let topicLen := (ofHostU16 t₀ t₁).toNat
      let payloadLen := (ofHostU16 p₀ p₁).toNat
      if topicLen = 0 ∨ MQTT_TOPIC_MAX ≤ topicLen ∨ MQTT_PAYLOAD_MAX < payloadLen then none
      else if topicLen + payloadLen ≠ rest.length then none
      else some ⟨fun i ↦ buf.getD i 0, ofHostU16 s₀ s₁, cstr (rest.take topicLen),
        rest.drop topicLen, qos, retain⟩
  | _ => none

/-- A message as `build_publish_frame` takes it. -/
structure P2pPublishMsg.Fits (msg : P2pPublishMsg) : Prop where
  topic_lt : msg.topic.length < MQTT_TOPIC_MAX
  topic_ne : msg.topic ≠ []
  no_nul : 0 ∉ msg.topic
  payload_le : msg.payload.length ≤ MQTT_PAYLOAD_MAX

namespace P2pPublishMsg

/-- The bytes of a frame, with the topic as it is counted. -/
def wire (msg : P2pPublishMsg) : Bytes :=
  List.ofFn msg.originId ++ (hostU16 msg.seq ++ hostU16 (UInt16.ofNat msg.topic.length) ++
    hostU16 (UInt16.ofNat msg.payload.length) ++ [msg.qos, msg.retain]) ++ msg.topic ++ msg.payload

/-- The lengths that both functions check. -/
structure Lengths (msg : P2pPublishMsg) : Prop where
  topic_ne : msg.topic ≠ []
  topic_lt : msg.topic.length < MQTT_TOPIC_MAX
  payload_le : msg.payload.length ≤ MQTT_PAYLOAD_MAX

variable {msg : P2pPublishMsg}

theorem length_wire : msg.wire.length =
    P2P_PUBLISH_WIRE_HDR + msg.topic.length + msg.payload.length := by
  simp only [wire, hostU16, List.length_append, List.length_ofFn, List.length_cons, List.length_nil,
    P2P_PUBLISH_WIRE_HDR]

/-- The buffer of `P2P_PUBLISH_FRAME_MAX` bytes has room for every frame. -/
theorem buildPublishFrame_iff {frame : Bytes} :
    buildPublishFrame msg = some frame ↔ msg.Lengths ∧ frame = msg.wire := by
  unfold buildPublishFrame
  split_ifs with hbad
  · refine iff_of_false (by simp) fun ⟨h, _⟩ ↦ ?_
    rcases hbad with hbad | hbad | hbad
    · exact absurd h.topic_lt (not_lt.mpr hbad)
    · exact h.topic_ne hbad
    · exact absurd h.payload_le (not_le.mpr hbad)
  · simp only [not_or, not_le, not_lt] at hbad
    obtain ⟨htopic, hne, hpayload⟩ := hbad
    have hroom : ¬ P2P_PUBLISH_FRAME_MAX < msg.wire.length := by
      rw [length_wire, P2P_PUBLISH_FRAME_MAX]
      omega
    change (if P2P_PUBLISH_FRAME_MAX < msg.wire.length then none else some msg.wire) = some frame ↔ _
    rw [if_neg hroom, Option.some.injEq]
    exact ⟨fun h ↦ ⟨⟨hne, htopic, hpayload⟩, h.symm⟩, fun h ↦ h.2.symm⟩

/-- A counted topic is read as the string at its front. -/
theorem parse_wire (h : msg.Lengths) :
    parsePublishFrame msg.wire = some { msg with topic := cstr msg.topic } := by
  obtain ⟨hne, htopic, hpayload⟩ := h
  have hpos : 0 < msg.topic.length := List.length_pos_iff.mpr hne
  simp only [MQTT_TOPIC_MAX] at htopic
  simp only [MQTT_PAYLOAD_MAX] at hpayload
  have htl : (UInt16.ofNat msg.topic.length).toNat = msg.topic.length := by
    rw [UInt16.toNat_ofNat']
    exact Nat.mod_eq_of_lt (by omega)
  have hpl : (UInt16.ofNat msg.payload.length).toNat = msg.payload.length := by
    rw [UInt16.toNat_ofNat']
    exact Nat.mod_eq_of_lt (by omega)
  have hdrop : msg.wire.drop P2P_NODE_ID_LEN =
      hostU16 msg.seq ++ hostU16 (UInt16.ofNat msg.topic.length) ++
        hostU16 (UInt16.ofNat msg.payload.length) ++ [msg.qos, msg.retain] ++
        (msg.topic ++ msg.payload) := by
    rw [wire, List.append_assoc, List.append_assoc, List.drop_left' List.length_ofFn,
      List.append_assoc]
  have horigin : ∀ i : Fin P2P_NODE_ID_LEN, msg.wire.getD i 0 = msg.originId i := by
    intro i
    rw [wire, List.append_assoc, List.append_assoc, List.getD_append _ _ _ _ (by simp),
      List.getD_eq_getElem _ _ (by simp)]
    simp
  rw [parsePublishFrame, hdrop]
  simp only [hostU16, List.cons_append, List.nil_append, horigin]
  simp only [ofHostU16_hostU16, htl, hpl]
  have hlens : ¬ (msg.topic.length = 0 ∨ MQTT_TOPIC_MAX ≤ msg.topic.length ∨
      MQTT_PAYLOAD_MAX < msg.payload.length) := by
    simp only [MQTT_TOPIC_MAX, MQTT_PAYLOAD_MAX]
    omega
  rw [if_neg hlens, if_neg (by simp)]
  simp

end P2pPublishMsg

theorem parsePublishFrame_buildPublishFrame {msg : P2pPublishMsg} (h : msg.Fits) :
    (buildPublishFrame msg).bind parsePublishFrame = some msg := by
  have hlens : msg.Lengths := ⟨h.topic_ne, h.topic_lt, h.payload_le⟩
  rw [P2pPublishMsg.buildPublishFrame_iff.mpr ⟨hlens, rfl⟩, Option.bind_some,
    P2pPublishMsg.parse_wire hlens, cstr_eq_self h.no_nul]

theorem parsePublishFrame_fits {buf : Bytes} {msg : P2pPublishMsg}
    (h : parsePublishFrame buf = some msg) :
    0 ∉ msg.topic ∧ msg.payload.length ≤ MQTT_PAYLOAD_MAX := by
  unfold parsePublishFrame at h
  split at h
  · dsimp only at h
    split_ifs at h with hbad hlen
    cases h
    refine ⟨nul_not_mem_cstr _, ?_⟩
    simp only [not_or, not_lt] at hbad
    simp only [List.length_drop]
    omega
  · cases h

/-- The MQTT message that `handle_publish` of `p2p_peer.c` publishes. -/
def P2pPublishMsg.toPublish (msg : P2pPublishMsg) : MqttPublish :=
  ⟨msg.topic.take (MQTT_TOPIC_MAX - 1), msg.payload, msg.qos, msg.retain, 0, 0⟩

end MqttBroker
