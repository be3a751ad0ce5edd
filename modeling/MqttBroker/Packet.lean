import MqttBroker.Basic

/-!
# Packets

The parsers and builders of `packet.c`.  A buffer read at a moving `pos` is
the list of the bytes from `pos` on.
-/

namespace MqttBroker

abbrev Bytes := List UInt8

namespace PacketType

def connect : UInt8 := 0x10
def connack : UInt8 := 0x20
def publish : UInt8 := 0x30
def puback : UInt8 := 0x40
def pubrec : UInt8 := 0x50
def pubrel : UInt8 := 0x60
def pubcomp : UInt8 := 0x70
def subscribe : UInt8 := 0x80
def suback : UInt8 := 0x90
def unsubscribe : UInt8 := 0xA0
def unsuback : UInt8 := 0xB0
def pingreq : UInt8 := 0xC0
def pingresp : UInt8 := 0xD0
def disconnect : UInt8 := 0xE0

end PacketType

/-- `mqtt_packet_t`; `buf` is the first `buf_len` bytes. -/
structure MqttPacket where
  typeFlags : UInt8
  remainingLen : ℕ
  buf : Bytes
  deriving DecidableEq, Repr

/-- `mqtt_publish_t`; `payload` is the first `payload_len` bytes. -/
structure MqttPublish where
  topic : CStr
  payload : Bytes
  qos : UInt8
  retain : UInt8
  dup : UInt8
  packetId : UInt16
  deriving DecidableEq, Repr

instance : Inhabited MqttPublish := ⟨⟨[], [], 0, 0, 0, 0⟩⟩

/-! ## Remaining length -/

/-- The loop of `packet_encode_remaining_len` with `k` rounds left. -/
def encodeRemainingLenFrom : ℕ → ℕ → Option Bytes
  | 0, _ => none
  | k + 1, len =>
      if 0 < len / 128 then
        (encodeRemainingLenFrom k (len / 128)).map
          ((UInt8.ofNat (len % 128) ||| 0x80) :: ·)
      else some [UInt8.ofNat (len % 128)]

def packetEncodeRemainingLen (len : ℕ) : Option Bytes := encodeRemainingLenFrom 4 len

/-- The loop of `packet_decode_remaining_len` with `k` rounds left: the value
and the number of bytes read. -/
def decodeRemainingLenFrom : ℕ → ℕ → ℕ → Bytes → Option (ℕ × ℕ)
  | 0, _, _, _ => none
  | _ + 1, _, _, [] => none
  | k + 1, value, multiplier, b :: rest =>
      let value := value + (b &&& 0x7F).toNat * multiplier
      if b &&& 0x80 ≠ 0 then
        (decodeRemainingLenFrom k value (multiplier * 128) rest).map fun r ↦ (r.1, r.2 + 1)
      else some (value, 1)

def packetDecodeRemainingLen (buf : Bytes) : Option (ℕ × ℕ) :=
  decodeRemainingLenFrom 4 0 1 buf

/-! ## Fields -/

/-- `read_u16`: the first two bytes, big endian. -/
def readU16 : Bytes → Option (UInt16 × Bytes)
  | a :: b :: rest => some (a.toUInt16 <<< 8 ||| b.toUInt16, rest)
  | _ => none

def writeU16 (v : UInt16) : Bytes := [(v >>> 8).toUInt8, (v &&& 0xFF).toUInt8]

/-- `read_str` into a buffer of `outCap` bytes. -/
def readStr (outCap : ℕ) (buf : Bytes) : Option (CStr × Bytes) := do
  let (len, rest) ← readU16 buf
  if rest.length < len.toNat ∨ outCap ≤ len.toNat then none
  else if 0 ∈ rest.take len.toNat then none
  else some (rest.take len.toNat, rest.drop len.toNat)

def writeStr (s : CStr) : Bytes := writeU16 (UInt16.ofNat s.length) ++ s

/-! ## PUBLISH -/

def packetParsePublish (pkt : MqttPacket) : Option MqttPublish := do
  let dup := (pkt.typeFlags >>> 3) &&& 1
  let qos := (pkt.typeFlags >>> 1) &&& 3
  let retain := pkt.typeFlags &&& 1
  if qos = 3 then none
  else
    let (topic, rest) ← readStr MQTT_TOPIC_MAX pkt.buf
    if 0 < qos then
      let (packetId, payload) ← readU16 rest
      if packetId = 0 then none
      else if MQTT_PAYLOAD_MAX < payload.length % 2 ^ 16 then none
      else some ⟨topic, payload.take (payload.length % 2 ^ 16), qos, retain, dup, packetId⟩
    else if MQTT_PAYLOAD_MAX < rest.length % 2 ^ 16 then none
    else some ⟨topic, rest.take (rest.length % 2 ^ 16), qos, retain, dup, 0⟩

/-- The first byte of a PUBLISH frame. -/
def publishHeader (pub : MqttPublish) : UInt8 :=
  PacketType.publish ||| ((pub.dup &&& 1) <<< 3) ||| (pub.qos <<< 1) ||| pub.retain

/-- The bits of the packet type are set in the first byte. -/
theorem publishHeader_and {m : UInt8} (hm : PacketType.publish &&& m = m) (pub : MqttPublish) :
    publishHeader pub &&& m = m := by
  have hor : ∀ x : UInt8, (PacketType.publish ||| x) &&& m = m := by
    intro x
    have hbits := congrArg UInt8.toBitVec hm
    apply UInt8.toBitVec_inj.1
    simp only [UInt8.toBitVec_and, UInt8.toBitVec_or] at hbits ⊢
    ext i hi
    have hbit := congrArg (fun b ↦ b[i]) hbits
    simp only [BitVec.getElem_and, BitVec.getElem_or] at hbit ⊢
    rw [Bool.and_or_distrib_right, hbit]
    simp
  rw [publishHeader, UInt8.or_assoc, UInt8.or_assoc]
  exact hor _

/-- The bytes of a PUBLISH frame after its remaining length. -/
def publishBody (pub : MqttPublish) : Bytes :=
  writeStr pub.topic ++ (if 0 < pub.qos then writeU16 pub.packetId else []) ++ pub.payload

def packetBuildPublish (pub : MqttPublish) (outCap : ℕ) : Option Bytes :=
  if MQTT_TOPIC_MAX ≤ pub.topic.length ∨ pub.topic = [] ∨ hasWildcard pub.topic ∨
      2 < pub.qos ∨ (0 < pub.qos ∧ pub.packetId = 0) ∨
      MQTT_PAYLOAD_MAX < pub.payload.length then none
  else do
    let remEnc ← packetEncodeRemainingLen (publishBody pub).length
    let out := publishHeader pub :: (remEnc ++ publishBody pub)
    if outCap < out.length then none else some out

/-! ## Encoding and decoding agree -/

theorem lengthByte_last {d : ℕ} (hd : d < 128) :
    (UInt8.ofNat d &&& 0x7F).toNat = d ∧ UInt8.ofNat d &&& 0x80 = 0 := by
  revert d
  decide

theorem lengthByte_more {d : ℕ} (hd : d < 128) :
    ((UInt8.ofNat d ||| 0x80) &&& 0x7F).toNat = d ∧
      (UInt8.ofNat d ||| 0x80) &&& 0x80 ≠ 0 := by
  revert d
  decide

theorem u16_of_bytes (v : UInt16) :
    (v >>> 8).toUInt8.toUInt16 <<< 8 ||| (v &&& 0xFF).toUInt8.toUInt16 = v := by
  apply UInt16.toBitVec_inj.1
  simp only [UInt16.toBitVec_or, UInt16.toBitVec_shiftLeft, UInt8.toBitVec_toUInt16,
    UInt16.toBitVec_toUInt8, UInt16.toBitVec_shiftRight, UInt16.toBitVec_and]
  ext i hi
  interval_cases i <;> simp [BitVec.getElem_or, BitVec.getElem_shiftLeft]

theorem decode_encodeRemainingLenFrom {k len : ℕ} {enc : Bytes}
    (h : encodeRemainingLenFrom k len = some enc) (value multiplier : ℕ) (rest : Bytes) :
    decodeRemainingLenFrom k value multiplier (enc ++ rest) =
      some (value + len * multiplier, enc.length) := by
  induction k generalizing len enc value multiplier with
  | zero => simp [encodeRemainingLenFrom] at h
  | succ k ih =>
      have hd : len % 128 < 128 := Nat.mod_lt _ (by decide)
      simp only [encodeRemainingLenFrom] at h
      split_ifs at h with hmore
      · obtain ⟨tail, htail, rfl⟩ := Option.map_eq_some_iff.mp h
        obtain ⟨hval, hbit⟩ := lengthByte_more hd
        have hsum : value + len % 128 * multiplier + len / 128 * (multiplier * 128) =
            value + len * multiplier := by
          conv_rhs => rw [← Nat.mod_add_div len 128]
          ring
        simp [decodeRemainingLenFrom, hval, hbit, ih htail, hsum]
      · obtain rfl : [UInt8.ofNat (len % 128)] = enc := by simpa using h
        obtain ⟨hval, hbit⟩ := lengthByte_last hd
        have hlen : len % 128 = len := Nat.mod_eq_of_lt (by omega)
        rw [hlen] at hval hbit
        simp [decodeRemainingLenFrom, hlen, hval, hbit]

theorem packetDecode_packetEncode {len : ℕ} {enc : Bytes}
    (h : packetEncodeRemainingLen len = some enc) (rest : Bytes) :
    packetDecodeRemainingLen (enc ++ rest) = some (len, enc.length) := by
  rw [packetDecodeRemainingLen, decode_encodeRemainingLenFrom h 0 1 rest]
  simp

/-- Two length bytes are enough below `128 ^ 2`. -/
theorem packetEncodeRemainingLen_of_lt {len : ℕ} (h : len < 16384) :
    ∃ enc, packetEncodeRemainingLen len = some enc ∧ enc.length ≤ 2 := by
  have hsmall : ¬ 0 < len / 128 / 128 := by omega
  by_cases hlen : 0 < len / 128
  · exact ⟨_, by simp [packetEncodeRemainingLen, encodeRemainingLenFrom, hlen, hsmall]; rfl,
      by simp⟩
  · exact ⟨[UInt8.ofNat (len % 128)], by
      simp [packetEncodeRemainingLen, encodeRemainingLenFrom, hlen], by simp⟩

theorem readU16_writeU16 (v : UInt16) (rest : Bytes) :
    readU16 (writeU16 v ++ rest) = some (v, rest) := by
  show some ((v >>> 8).toUInt8.toUInt16 <<< 8 ||| (v &&& 0xFF).toUInt8.toUInt16, rest) = _
  rw [u16_of_bytes]

theorem readStr_writeStr {s : CStr} {outCap : ℕ} (hlen : s.length < outCap)
    (hcap : outCap ≤ 2 ^ 16) (hnul : 0 ∉ s) (rest : Bytes) :
    readStr outCap (writeStr s ++ rest) = some (s, rest) := by
  have hs : (UInt16.ofNat s.length).toNat = s.length := by
    rw [UInt16.toNat_ofNat']
    exact Nat.mod_eq_of_lt (by omega)
  simp [readStr, writeStr, readU16_writeU16, hs, hnul, Nat.not_le.mpr hlen]

/-- What `packet_build_publish` checks of a message. -/
structure MqttPublish.Sendable (pub : MqttPublish) : Prop where
  topic_lt : pub.topic.length < MQTT_TOPIC_MAX
  topic_ne : pub.topic ≠ []
  no_wildcard : hasWildcard pub.topic = false
  qos_le : pub.qos ≤ 2
  id_ne : 0 < pub.qos → pub.packetId ≠ 0
  payload_le : pub.payload.length ≤ MQTT_PAYLOAD_MAX

theorem publishBody_length_le {pub : MqttPublish} (h : pub.Sendable) :
    (publishBody pub).length ≤ MQTT_TOPIC_MAX + MQTT_PAYLOAD_MAX + 3 := by
  have h₁ := h.topic_lt
  have h₂ := h.payload_le
  simp only [publishBody, writeStr, writeU16, List.length_append, List.length_cons,
    List.length_nil]
  split_ifs <;> simp <;> omega

/-- A sendable message is built into one frame, within the sender's buffer. -/
theorem packetBuildPublish_eq {pub : MqttPublish} (h : pub.Sendable) :
    ∃ enc, packetEncodeRemainingLen (publishBody pub).length = some enc ∧
      packetBuildPublish pub (MQTT_MAX_PACKET_SIZE + 8) =
        some (publishHeader pub :: (enc ++ publishBody pub)) := by
  have hlen := publishBody_length_le h
  have hlt : (publishBody pub).length < 16384 := by
    simp only [MQTT_TOPIC_MAX, MQTT_PAYLOAD_MAX] at hlen
    omega
  obtain ⟨enc, henc, hbytes⟩ := packetEncodeRemainingLen_of_lt hlt
  refine ⟨enc, henc, ?_⟩
  have hchecks : ¬(MQTT_TOPIC_MAX ≤ pub.topic.length ∨ pub.topic = [] ∨
      hasWildcard pub.topic = true ∨ 2 < pub.qos ∨ (0 < pub.qos ∧ pub.packetId = 0) ∨
      MQTT_PAYLOAD_MAX < pub.payload.length) := by
    have h₁ := h.topic_lt
    have h₂ := h.payload_le
    have h₃ := h.qos_le
    rintro (hc | hc | hc | hc | hc | hc)
    · omega
    · exact h.topic_ne hc
    · simp [h.no_wildcard] at hc
    · exact absurd hc (UInt8.not_lt.mpr h₃)
    · exact h.id_ne hc.1 hc.2
    · omega
  have hfit : ¬ MQTT_MAX_PACKET_SIZE + 8 < (publishHeader pub :: (enc ++ publishBody pub)).length := by
    simp only [List.length_cons, List.length_append, MQTT_MAX_PACKET_SIZE]
    omega
  rw [packetBuildPublish, if_neg hchecks, henc]
  simp only [Option.bind_eq_bind, Option.bind_some]
  rw [if_neg hfit]

theorem sendable_of_build {pub : MqttPublish} {outCap : ℕ} {frame : Bytes}
    (h : packetBuildPublish pub outCap = some frame) : pub.Sendable := by
  unfold packetBuildPublish at h
  split_ifs at h with hbad
  simp only [not_or, not_le, not_lt] at hbad
  obtain ⟨htopic, hne, hplain, hqos, hid, hpayload⟩ := hbad
  exact ⟨htopic, hne, by simpa using hplain, UInt8.not_lt.mp hqos,
    fun hpos hzero ↦ hid ⟨hpos, hzero⟩, hpayload⟩

/-- The body of a frame parses back, whatever the DUP and RETAIN bits of its
first byte. -/
theorem packetParsePublish_body {pub : MqttPublish} (h : pub.Sendable) (hnul : 0 ∉ pub.topic)
    {flags : UInt8} (hq : (flags >>> 1) &&& 3 = pub.qos) (n : ℕ) :
    packetParsePublish ⟨flags, n, publishBody pub⟩ =
      some ⟨pub.topic, pub.payload, pub.qos, flags &&& 1, (flags >>> 3) &&& 1,
        if 0 < pub.qos then pub.packetId else 0⟩ := by
  have hmod : pub.payload.length % 65536 = pub.payload.length :=
    Nat.mod_eq_of_lt (lt_of_le_of_lt h.payload_le (by decide))
  have hpay := h.payload_le
  have h3 : pub.qos ≠ 3 := by
    rintro h3
    exact absurd h.qos_le (by rw [h3]; decide)
  have hstr := readStr_writeStr h.topic_lt (by decide : MQTT_TOPIC_MAX ≤ 2 ^ 16) hnul
  by_cases hqos : 0 < pub.qos
  · simp [packetParsePublish, publishBody, hq, h3, hqos, hstr, readU16_writeU16,
      h.id_ne hqos, hmod, hpay]
  · simp [packetParsePublish, publishBody, hq, h3, hqos, hstr, hmod, hpay]

theorem readStr_topic {outCap : ℕ} {s t : CStr} {rest rest' : Bytes} (hlen : s.length < 2 ^ 16)
    (h : readStr outCap (writeStr s ++ rest) = some (t, rest')) : t = s := by
  have htoNat : (UInt16.ofNat s.length).toNat = s.length := by
    rw [UInt16.toNat_ofNat']
    exact Nat.mod_eq_of_lt hlen
  rw [readStr, writeStr, List.append_assoc, readU16_writeU16] at h
  simp only [Option.bind_eq_bind, Option.bind_some, htoNat, List.take_left] at h
  split_ifs at h
  exact (Prod.mk.inj (Option.some.inj h)).1.symm

/-- Whatever its first byte, a frame that parses has the topic it was built with. -/
theorem packetParsePublish_topic {pub pub' : MqttPublish} {flags : UInt8} {n : ℕ}
    (hlen : pub.topic.length < MQTT_TOPIC_MAX)
    (h : packetParsePublish ⟨flags, n, publishBody pub⟩ = some pub') : pub'.topic = pub.topic := by
  have hlt : pub.topic.length < 2 ^ 16 := hlen.trans (by decide)
  simp only [packetParsePublish, publishBody, List.append_assoc] at h
  generalize (if 0 < pub.qos then writeU16 pub.packetId else []) ++ pub.payload = tail at h
  split_ifs at h with h3 hpos
  · simp only [Option.bind_eq_bind, Option.bind_eq_some_iff] at h
    obtain ⟨⟨topic, rest⟩, htopic, ⟨id, payload⟩, -, h⟩ := h
    split_ifs at h
    obtain rfl := Option.some.inj h
    exact readStr_topic hlt htopic
  · simp only [Option.bind_eq_bind, Option.bind_eq_some_iff] at h
    obtain ⟨⟨topic, rest⟩, htopic, h⟩ := h
    split_ifs at h
    obtain rfl := Option.some.inj h
    exact readStr_topic hlt htopic

theorem readStr_length_lt {outCap : ℕ} {buf rest : Bytes} {s : CStr}
    (h : readStr outCap buf = some (s, rest)) : s.length < outCap := by
  simp only [readStr, Option.bind_eq_bind, Option.bind_eq_some_iff] at h
  obtain ⟨⟨len, tail⟩, -, h⟩ := h
  split_ifs at h with hcap hnul
  obtain ⟨rfl, -⟩ := Prod.mk.inj (Option.some.inj h)
  simp only [not_or, not_lt, not_le] at hcap
  exact lt_of_le_of_lt (List.length_take_le _ _) hcap.2

theorem readStr_nul {outCap : ℕ} {buf rest : Bytes} {s : CStr}
    (h : readStr outCap buf = some (s, rest)) : 0 ∉ s := by
  simp only [readStr, Option.bind_eq_bind, Option.bind_eq_some_iff] at h
  obtain ⟨⟨len, tail⟩, -, h⟩ := h
  split_ifs at h with hcap hnul
  obtain ⟨rfl, -⟩ := Prod.mk.inj (Option.some.inj h)
  exact hnul

theorem u8_and_three_le {q : UInt8} (h : q &&& 3 ≠ 3) : q &&& 3 ≤ 2 := by
  have hle : (q &&& 3).toNat ≤ 3 := by
    rw [UInt8.toNat_and]
    exact Nat.and_le_right
  have hne : (q &&& 3).toNat ≠ 3 := fun h3 ↦ h (UInt8.toNat_inj.mp h3)
  rw [UInt8.le_iff_toNat_le]
  show (q &&& 3).toNat ≤ 2
  omega

/-- A parsed message fits `mqtt_publish_t` and has a QoS of at most 2. -/
theorem packetParsePublish_fits {pkt : MqttPacket} {pub : MqttPublish}
    (h : packetParsePublish pkt = some pub) :
    pub.topic.length < MQTT_TOPIC_MAX ∧ pub.payload.length ≤ MQTT_PAYLOAD_MAX ∧ pub.qos ≤ 2 := by
  have htake : ∀ l : Bytes, ¬ MQTT_PAYLOAD_MAX < l.length % 2 ^ 16 →
      (l.take (l.length % 2 ^ 16)).length ≤ MQTT_PAYLOAD_MAX := fun l hl ↦
    le_trans (List.length_take_le _ _) (not_lt.mp hl)
  simp only [packetParsePublish] at h
  split_ifs at h with h3 hpos
  · simp only [Option.bind_eq_bind, Option.bind_eq_some_iff] at h
    obtain ⟨⟨topic, rest⟩, htopic, ⟨id, payload⟩, -, h⟩ := h
    split_ifs at h with hid hlen
    obtain rfl := Option.some.inj h
    exact ⟨readStr_length_lt htopic, htake payload hlen, u8_and_three_le h3⟩
  · simp only [Option.bind_eq_bind, Option.bind_eq_some_iff] at h
    obtain ⟨⟨topic, rest⟩, htopic, h⟩ := h
    split_ifs at h with hlen
    obtain rfl := Option.some.inj h
    exact ⟨readStr_length_lt htopic, htake rest hlen, u8_and_three_le h3⟩

theorem u8_le_two {q : UInt8} (h : q ≤ 2) : q = 0 ∨ q = 1 ∨ q = 2 := by grind

theorem u8_and_one (d : UInt8) : d &&& 1 = 0 ∨ d &&& 1 = 1 := by
  simp only [← UInt8.toNat_inj, UInt8.toNat_and]
  simp only [UInt8.reduceToNat, Nat.and_one_is_mod]
  omega

/-- The QoS bits of a header, also after a retry has set DUP. -/
theorem publishHeader_qos {pub : MqttPublish} (hq : pub.qos ≤ 2) (hr : pub.retain ≤ 1) :
    (publishHeader pub >>> 1) &&& 3 = pub.qos ∧
      ((publishHeader pub ||| 0x08) >>> 1) &&& 3 = pub.qos := by
  have hret : pub.retain = 0 ∨ pub.retain = 1 := by grind
  unfold publishHeader
  rcases u8_and_one pub.dup with hd | hd <;> rcases u8_le_two hq with hq | hq | hq <;>
    rcases hret with hr | hr <;> rw [hd, hq, hr] <;> decide

/-! ## Acknowledgements -/

/-- The acknowledgement builders: a fixed type byte and the packet id. -/
def packetBuildAck (type : UInt8) (packetId : UInt16) (outCap : ℕ) : Option Bytes :=
  if packetId = 0 ∨ outCap < 4 then none else some (type :: 2 :: writeU16 packetId)

def packetBuildUnsuback := packetBuildAck PacketType.unsuback
def packetBuildPuback := packetBuildAck PacketType.puback
def packetBuildPubrec := packetBuildAck PacketType.pubrec
def packetBuildPubrel := packetBuildAck (PacketType.pubrel ||| 0x02)
def packetBuildPubcomp := packetBuildAck PacketType.pubcomp

theorem packetBuildAck_ne_none {type : UInt8} {packetId : UInt16} (h : packetId ≠ 0) :
    packetBuildAck type packetId 4 ≠ none := by
  simp [packetBuildAck, h]

def packetBuildPingresp (outCap : ℕ) : Option Bytes :=
  if outCap < 2 then none else some [PacketType.pingresp, 0]

def packetBuildConnack (sessionPresent returnCode : UInt8) (outCap : ℕ) : Option Bytes :=
  if outCap < 4 ∨ 5 < returnCode ∨ (returnCode ≠ 0 ∧ sessionPresent ≠ 0) then none
  else some [PacketType.connack, 2, sessionPresent &&& 1, returnCode]

def packetBuildSuback (packetId : UInt16) (returnCodes : Bytes) (outCap : ℕ) : Option Bytes :=
  if packetId = 0 ∨ returnCodes = [] ∨ outCap < 4 + returnCodes.length then none
  else if returnCodes.any fun r ↦ r ≠ 0 ∧ r ≠ 1 ∧ r ≠ 2 ∧ r ≠ 0x80 then none
  else some (PacketType.suback :: UInt8.ofNat (2 + returnCodes.length) ::
    (writeU16 packetId ++ returnCodes))

/-! ## SUBSCRIBE and UNSUBSCRIBE -/

/-- The loop of `packet_parse_subscribe` with room for `k` more filters. -/
def parseSubscribeFrom : ℕ → Bytes → Option (List (CStr × UInt8))
  | _, [] => some []
  | 0, _ :: _ => none
  | k + 1, buf => do
      let (topic, rest) ← readStr MQTT_TOPIC_MAX buf
      match rest with
      | [] => none
      | requestedQos :: rest =>
          if requestedQos &&& 0xFC ≠ 0 ∨ 2 < requestedQos then none
          else (parseSubscribeFrom k rest).map ((topic, requestedQos) :: ·)

/-- `packet_parse_subscribe`: the packet id and the filters with their QoS. -/
def packetParseSubscribe (pkt : MqttPacket) (maxTopics : ℕ) :
    Option (UInt16 × List (CStr × UInt8)) := do
  let (packetId, rest) ← readU16 pkt.buf
  if packetId = 0 then none
  else
    let topics ← parseSubscribeFrom maxTopics rest
    if topics = [] then none else some (packetId, topics)

/-- The loop of `packet_parse_unsubscribe` with room for `k` more filters. -/
def parseUnsubscribeFrom : ℕ → Bytes → Option (List CStr)
  | _, [] => some []
  | 0, _ :: _ => none
  | k + 1, buf => do
      let (topic, rest) ← readStr MQTT_TOPIC_MAX buf
      (parseUnsubscribeFrom k rest).map (topic :: ·)

/-- `packet_parse_unsubscribe`. -/
def packetParseUnsubscribe (pkt : MqttPacket) (maxTopics : ℕ) :
    Option (UInt16 × List CStr) := do
  let (packetId, rest) ← readU16 pkt.buf
  if packetId = 0 then none
  else
    let topics ← parseUnsubscribeFrom maxTopics rest
    if topics = [] then none else some (packetId, topics)

theorem parseSubscribeFrom_fits {k : ℕ} {buf : Bytes} {l : List (CStr × UInt8)}
    (h : parseSubscribeFrom k buf = some l) :
    ∀ e ∈ l, e.1.length < MQTT_TOPIC_MAX ∧ e.2 ≤ 2 := by
  induction k generalizing buf l with
  | zero =>
      cases buf with
      | nil =>
          cases h
          simp
      | cons b buf => cases h
  | succ k ih =>
      cases buf with
      | nil =>
          cases h
          simp
      | cons b buf =>
          obtain ⟨⟨topic, rest⟩, htopic, h⟩ := Option.bind_eq_some_iff.mp h
          dsimp only at h
          cases rest with
          | nil => cases h
          | cons requestedQos rest =>
              dsimp only at h
              split_ifs at h with hbad
              obtain ⟨l', hrest, rfl⟩ := Option.map_eq_some_iff.mp h
              intro e he
              rcases List.mem_cons.mp he with rfl | he
              · exact ⟨readStr_length_lt htopic, UInt8.not_lt.mp (not_or.mp hbad).2⟩
              · exact ih hrest e he

/-- The filters of a SUBSCRIBE fit into the parser's buffers, and a QoS is at most 2. -/
theorem packetParseSubscribe_fits {pkt : MqttPacket} {maxTopics : ℕ} {id : UInt16}
    {topics : List (CStr × UInt8)} (h : packetParseSubscribe pkt maxTopics = some (id, topics)) :
    ∀ e ∈ topics, e.1.length < MQTT_TOPIC_MAX ∧ e.2 ≤ 2 := by
  obtain ⟨⟨id', rest⟩, -, h⟩ := Option.bind_eq_some_iff.mp h
  dsimp only at h
  split_ifs at h
  obtain ⟨l, hparse, h⟩ := Option.bind_eq_some_iff.mp h
  split_ifs at h
  cases h
  exact parseSubscribeFrom_fits hparse

/-! ## CONNECT -/

def MQTT_USERNAME_MAX : ℕ := 64
def MQTT_PASSWORD_MAX : ℕ := 64
/-- `sizeof(will_payload)` -/
def WILL_PAYLOAD_MAX : ℕ := 256

/-- `mqtt_connect_t`; a field whose flag is clear is empty. -/
structure MqttConnect where
  clientId : CStr
  cleanSession : Bool
  keepalive : UInt16
  hasWill : Bool
  willTopic : CStr
  willPayload : Bytes
  willQos : UInt8
  willRetain : UInt8
  hasUsername : Bool
  hasPassword : Bool
  username : CStr
  password : CStr
  deriving DecidableEq, Repr

/-- A string that is there only if its flag is set. -/
def readStrIf (flag : Bool) (outCap : ℕ) (buf : Bytes) : Option (CStr × Bytes) :=
  if flag then readStr outCap buf else some ([], buf)

/-- The topic and the payload of a will that is there only if its flag is set. -/
def readWillIf (flag : Bool) (buf : Bytes) : Option (CStr × Bytes × Bytes) :=
  if flag then do
    let (topic, rest) ← readStr MQTT_TOPIC_MAX buf
    let (len, rest) ← readU16 rest
    if rest.length < len.toNat ∨ WILL_PAYLOAD_MAX < len.toNat then none
    else some (topic, rest.take len.toNat, rest.drop len.toNat)
  else some ([], [], buf)

/-- `packet_parse_connect` from the connect flags on. -/
def parseConnectFlags (flags : UInt8) (keepalive : UInt16) (buf : Bytes) :
    Option MqttConnect := do
  let hasWill := (flags >>> 2) &&& 1 = 1
  let willQos := (flags >>> 3) &&& 3
  let willRetain := (flags >>> 5) &&& 1
  let hasPassword := (flags >>> 6) &&& 1 = 1
  let hasUsername := (flags >>> 7) &&& 1 = 1
  if flags &&& 1 ≠ 0 then none
  else if ¬hasWill ∧ (willQos ≠ 0 ∨ willRetain ≠ 0) then none
  else if hasPassword ∧ ¬hasUsername then none
  else
    let (clientId, rest) ← readStr MQTT_CLIENT_ID_MAX buf
    let (willTopic, willPayload, rest) ← readWillIf hasWill rest
    let (username, rest) ← readStrIf hasUsername MQTT_USERNAME_MAX rest
    let (password, rest) ← readStrIf hasPassword MQTT_PASSWORD_MAX rest
    if rest ≠ [] then none
    else some ⟨clientId, (flags >>> 1) &&& 1 = 1, keepalive, hasWill, willTopic, willPayload,
      willQos, willRetain, hasUsername, hasPassword, username, password⟩

/-- The protocol name `"MQTT"`. -/
def protocolName : CStr := [0x4D, 0x51, 0x54, 0x54]

/-- `packet_parse_connect`: the fields, or the return code. -/
def packetParseConnect (pkt : MqttPacket) : Except ℤ MqttConnect :=
  match readStr 8 pkt.buf with
  | none => .error (-1)
  | some (proto, rest) =>
      if proto ≠ protocolName then .error (-1)
      else
        match rest with
        | level :: flags :: hi :: lo :: rest =>
            if level ≠ 4 then .error (-2)
            else
              match parseConnectFlags flags (hi.toUInt16 <<< 8 ||| lo.toUInt16) rest with
              | some conn => .ok conn
              | none => .error (-1)
        | _ => .error (-1)

theorem readWillIf_fits {flag : Bool} {buf rest : Bytes} {topic : CStr} {payload : Bytes}
    (h : readWillIf flag buf = some (topic, payload, rest)) :
    0 ∉ topic ∧ payload.length ≤ WILL_PAYLOAD_MAX := by
  unfold readWillIf at h
  split_ifs at h
  · simp only [Option.bind_eq_bind, Option.bind_eq_some_iff] at h
    obtain ⟨⟨t, r⟩, ht, len, -, h⟩ := h
    split_ifs at h with hlen
    obtain ⟨rfl, heq⟩ := Prod.mk.inj (Option.some.inj h)
    obtain ⟨rfl, -⟩ := Prod.mk.inj heq
    exact ⟨readStr_nul ht, (List.length_take_le _ _).trans (not_lt.mp (not_or.mp hlen).2)⟩
  · obtain ⟨rfl, heq⟩ := Prod.mk.inj (Option.some.inj h)
    obtain ⟨rfl, -⟩ := Prod.mk.inj heq
    simp

theorem parseConnectFlags_ok {flags : UInt8} {keepalive : UInt16} {buf : Bytes}
    {conn : MqttConnect} (h : parseConnectFlags flags keepalive buf = some conn) :
    conn.clientId.length < MQTT_CLIENT_ID_MAX ∧ 0 ∉ conn.willTopic ∧
      conn.willPayload.length ≤ WILL_PAYLOAD_MAX := by
  unfold parseConnectFlags at h
  dsimp only at h
  split_ifs at h
  simp only [Option.bind_eq_bind, Option.bind_eq_some_iff] at h
  obtain ⟨⟨clientId, rest⟩, hid, ⟨topic, payload, rest'⟩, hwill, user, -, pass, -, h⟩ := h
  split_ifs at h
  obtain rfl := Option.some.inj h
  exact ⟨readStr_length_lt hid, readWillIf_fits hwill⟩

theorem packetParseConnect_ok {pkt : MqttPacket} {conn : MqttConnect}
    (h : packetParseConnect pkt = .ok conn) :
    conn.clientId.length < MQTT_CLIENT_ID_MAX ∧ 0 ∉ conn.willTopic ∧
      conn.willPayload.length ≤ WILL_PAYLOAD_MAX := by
  unfold packetParseConnect at h
  split at h
  · cases h
  · split_ifs at h
    split at h
    · split_ifs at h
      split at h
      · rename_i conn' hflags
        obtain rfl := Except.ok.inj h
        exact parseConnectFlags_ok hflags
      · cases h
    · cases h

end MqttBroker
