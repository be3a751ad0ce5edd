import MqttBroker.Layout

/-!
# PUBLISH frames

`packet_build_publish` against `packet_parse_publish`.  The builder masks the DUP byte of
a message, but puts the whole retain byte into the first byte of the frame.
-/

namespace MqttBroker

open Codec

/-- The packet that is read from a frame: the first byte, the remaining length, and the rest. -/
def decodeFrame : Bytes → Option MqttPacket
  | [] => none
  | typeFlags :: rest =>
      (packetDecodeRemainingLen rest).map fun r ↦ ⟨typeFlags, r.1, rest.drop r.2⟩

def retainBit (flags : UInt8) : UInt8 := flags &&& 1
def qosBits (flags : UInt8) : UInt8 := (flags >>> 1) &&& 3
def dupBit (flags : UInt8) : UInt8 := (flags >>> 3) &&& 1

/-- The frame parses to the same message. -/
def RoundTrips (pub : MqttPublish) (frame : Bytes) : Prop :=
  ∃ pkt pub', decodeFrame frame = some pkt ∧ packetParsePublish pkt = some pub' ∧
    pub'.topic = pub.topic ∧ pub'.payload = pub.payload ∧ pub'.qos = pub.qos ∧
    (0 < pub.qos → pub'.packetId = pub.packetId) ∧ pub'.dup = pub.dup &&& 1 ∧
    (pub'.retain ≠ 0 ↔ pub.retain ≠ 0)

/-- A retain byte that is 0 or odd, and of whose bits 1 to 3 only those are set that the
QoS and the DUP bit set anyway. -/
structure RetainFits (pub : MqttPublish) : Prop where
  odd : pub.retain ≠ 0 → retainBit pub.retain = 1
  qos : pub.qos ||| qosBits pub.retain = pub.qos
  dup : (pub.dup &&& 1 : UInt8) ||| dupBit pub.retain = pub.dup &&& 1

/-! ## The first byte -/

theorem publishHeader_bits {pub : MqttPublish} (hq : pub.qos ≤ 2) :
    qosBits (publishHeader pub) = pub.qos ||| qosBits pub.retain ∧
      dupBit (publishHeader pub) = (pub.dup &&& 1 : UInt8) ||| dupBit pub.retain ∧
      retainBit (publishHeader pub) = retainBit pub.retain := by
  have hall : ∀ d ∈ [(0 : UInt8), 1], ∀ q ∈ [(0 : UInt8), 1, 2], ∀ n < 256,
      let r := UInt8.ofNat n
      let h := PacketType.publish ||| (d <<< 3) ||| (q <<< 1) ||| r
      qosBits h = q ||| qosBits r ∧ dupBit h = d ||| dupBit r ∧ retainBit h = retainBit r := by
    decide +kernel
  have hd : pub.dup &&& 1 ∈ [(0 : UInt8), 1] := by
    rcases u8_and_one pub.dup with h | h <;> simp [h]
  have hqos : pub.qos ∈ [(0 : UInt8), 1, 2] := by
    rcases u8_le_two hq with h | h | h <;> simp [h]
  have h := hall _ hd _ hqos pub.retain.toNat pub.retain.toNat_lt
  rw [UInt8.ofNat_toNat] at h
  exact h

/-- A first byte is built again from its flags if it is that of a PUBLISH. -/
theorem publishHeader_of_flags {pub : MqttPublish} {t : UInt8} (hqos : pub.qos = qosBits t)
    (hdup : pub.dup = dupBit t) (hretain : pub.retain = retainBit t) :
    publishHeader pub = t ↔ t &&& 0xF0 = PacketType.publish := by
  have hall : ∀ n < 256, let t := UInt8.ofNat n
      PacketType.publish ||| ((dupBit t &&& 1) <<< 3) ||| (qosBits t <<< 1) ||| retainBit t = t ↔
        t &&& 0xF0 = PacketType.publish := by
    decide +kernel
  have h := hall t.toNat t.toNat_lt
  rw [UInt8.ofNat_toNat] at h
  rw [publishHeader, hqos, hdup, hretain]
  exact h

/-! ## From a message to a frame and back -/

theorem decodeFrame_built {t : UInt8} {enc body : Bytes}
    (henc : packetEncodeRemainingLen body.length = some enc) :
    decodeFrame (t :: (enc ++ body)) = some ⟨t, body.length, body⟩ := by
  rw [decodeFrame, packetDecode_packetEncode henc]
  simp

/-- The flags of a parsed message are those of the first byte. -/
theorem packetParsePublish_flags {pkt : MqttPacket} {pub : MqttPublish}
    (h : packetParsePublish pkt = some pub) :
    pub.qos = qosBits pkt.typeFlags ∧ pub.dup = dupBit pkt.typeFlags ∧
      pub.retain = retainBit pkt.typeFlags := by
  simp only [packetParsePublish] at h
  split_ifs at h with h3 hpos
  · simp only [Option.bind_eq_bind, Option.bind_eq_some_iff] at h
    obtain ⟨_, -, _, -, h⟩ := h
    split_ifs at h
    cases h
    exact ⟨rfl, rfl, rfl⟩
  · simp only [Option.bind_eq_bind, Option.bind_eq_some_iff] at h
    obtain ⟨_, -, h⟩ := h
    split_ifs at h
    cases h
    exact ⟨rfl, rfl, rfl⟩

/-- A frame that was built, whatever the room for it. -/
theorem packetBuildPublish_frame {pub : MqttPublish} {outCap : ℕ} {frame : Bytes}
    (h : packetBuildPublish pub outCap = some frame) :
    ∃ enc, packetEncodeRemainingLen (publishBody pub).length = some enc ∧
      frame = publishHeader pub :: (enc ++ publishBody pub) := by
  unfold packetBuildPublish at h
  split_ifs at h
  obtain ⟨enc, henc, hout⟩ := Option.bind_eq_some_iff.mp h
  dsimp only at hout
  split_ifs at hout
  exact ⟨enc, henc, (Option.some.inj hout).symm⟩

/-- The sender's buffer has room for every frame. -/
theorem packetBuildPublish_room {pub : MqttPublish} {outCap : ℕ} {frame : Bytes}
    (h : packetBuildPublish pub outCap = some frame) :
    packetBuildPublish pub (MQTT_MAX_PACKET_SIZE + 8) = some frame := by
  obtain ⟨enc, henc, rfl⟩ := packetBuildPublish_frame h
  obtain ⟨enc', henc', hbuild⟩ := packetBuildPublish_eq (sendable_of_build h)
  obtain rfl := Option.some.inj (henc.symm.trans henc')
  exact hbuild

theorem roundTrips_iff {pub : MqttPublish} (hnul : 0 ∉ pub.topic) {outCap : ℕ} {frame : Bytes}
    (h : packetBuildPublish pub outCap = some frame) : RoundTrips pub frame ↔ RetainFits pub := by
  have hsend := sendable_of_build h
  obtain ⟨hqos, hdup, hretain⟩ := publishHeader_bits hsend.qos_le
  obtain ⟨enc, henc, rfl⟩ := packetBuildPublish_frame h
  have hdecode := decodeFrame_built (t := publishHeader pub) henc
  have hzero : retainBit pub.retain ≠ 0 ↔ retainBit pub.retain = 1 := by
    rcases u8_and_one pub.retain with h | h <;> simp [retainBit, h]
  constructor
  · rintro ⟨pkt, pub', hpkt, hparse, -, -, hq, -, hd, hr⟩
    obtain rfl := Option.some.inj (hdecode.symm.trans hpkt)
    obtain ⟨hq', hd', hr'⟩ := packetParsePublish_flags hparse
    refine ⟨fun hne ↦ ?_, ?_, ?_⟩
    · rw [← hzero, ← hretain, ← hr']
      exact hr.mpr hne
    · rw [← hqos, ← hq', hq]
    · rw [← hdup, ← hd', hd]
  · intro hfits
    have hparse := packetParsePublish_body hsend hnul (hqos.trans hfits.qos)
      (publishBody pub).length
    refine ⟨_, _, hdecode, hparse, rfl, rfl, rfl, fun hpos ↦ if_pos hpos, hdup.trans hfits.dup, ?_⟩
    change retainBit (publishHeader pub) ≠ 0 ↔ pub.retain ≠ 0
    rw [hretain, hzero]
    refine ⟨fun hone hz ↦ ?_, hfits.odd⟩
    rw [hz] at hone
    cases hone

/-! ## From a frame to a message and back -/

/-- The body of a message that was parsed is what it was parsed from. -/
theorem packetParsePublish_spec {pkt : MqttPacket} {pub : MqttPublish}
    (hroom : pkt.buf.length ≤ MQTT_MAX_PACKET_SIZE) (h : packetParsePublish pkt = some pub) :
    pkt.buf = publishBody pub ∧ (0 < pub.qos → pub.packetId ≠ 0) := by
  have hstr := readStr_exact (by decide : MQTT_TOPIC_MAX ≤ 2 ^ 16)
  have hall : ∀ l : Bytes, l.length ≤ MQTT_MAX_PACKET_SIZE → l.take (l.length % 2 ^ 16) = l := by
    intro l hl
    have hlt : l.length < 2 ^ 16 := lt_of_le_of_lt hl (by decide)
    rw [Nat.mod_eq_of_lt hlt, List.take_length]
  simp only [packetParsePublish] at h
  split_ifs at h with h3 hpos
  · simp only [Option.bind_eq_bind, Option.bind_eq_some_iff] at h
    obtain ⟨⟨topic, rest⟩, htopic, ⟨id, payload⟩, hid, h⟩ := h
    split_ifs at h with hzero
    obtain ⟨hbuf, -⟩ := hstr.iff.mp htopic
    obtain ⟨rfl, -⟩ := readU16_exact.iff.mp hid
    have hlen : payload.length ≤ MQTT_MAX_PACKET_SIZE := by
      rw [hbuf, List.length_append, List.length_append] at hroom
      omega
    cases h
    refine ⟨?_, fun _ ↦ hzero⟩
    rw [hbuf, publishBody, if_pos hpos, hall payload hlen, List.append_assoc]
  · simp only [Option.bind_eq_bind, Option.bind_eq_some_iff] at h
    obtain ⟨⟨topic, rest⟩, htopic, h⟩ := h
    split_ifs at h
    obtain ⟨hbuf, -⟩ := hstr.iff.mp htopic
    have hlen : rest.length ≤ MQTT_MAX_PACKET_SIZE := by
      rw [hbuf, List.length_append] at hroom
      omega
    cases h
    refine ⟨?_, fun hq ↦ absurd hq hpos⟩
    rw [hbuf, publishBody, if_neg hpos, hall rest hlen, List.append_nil]

theorem sendable_of_parse {pkt : MqttPacket} {pub : MqttPublish}
    (hroom : pkt.buf.length ≤ MQTT_MAX_PACKET_SIZE) (h : packetParsePublish pkt = some pub)
    (hne : pub.topic ≠ []) (hwild : hasWildcard pub.topic = false) : pub.Sendable := by
  obtain ⟨htopic, hpayload, hqos⟩ := packetParsePublish_fits h
  exact ⟨htopic, hne, hwild, hqos, (packetParsePublish_spec hroom h).2, hpayload⟩

/-- Building a parsed message again gives the frame, if that is a PUBLISH whose remaining
length was written as the builder writes it. -/
theorem rebuild_iff {frame : Bytes} {pkt : MqttPacket} {pub : MqttPublish}
    (hdecode : decodeFrame frame = some pkt) (hcomplete : pkt.buf.length = pkt.remainingLen)
    (hroom : pkt.buf.length ≤ MQTT_MAX_PACKET_SIZE) (h : packetParsePublish pkt = some pub)
    (hne : pub.topic ≠ []) (hwild : hasWildcard pub.topic = false) :
    packetBuildPublish pub (MQTT_MAX_PACKET_SIZE + 8) = some frame ↔
      pkt.typeFlags &&& 0xF0 = PacketType.publish ∧
        ∃ enc, packetEncodeRemainingLen pkt.remainingLen = some enc ∧
          frame = pkt.typeFlags :: (enc ++ pkt.buf) := by
  obtain ⟨hqos, hdup, hretain⟩ := packetParsePublish_flags h
  have hbody := (packetParsePublish_spec hroom h).1
  obtain ⟨enc, henc, hbuild⟩ := packetBuildPublish_eq (sendable_of_parse hroom h hne hwild)
  rw [← hbody, hcomplete] at henc
  rw [hbuild, ← publishHeader_of_flags hqos hdup hretain, ← hbody]
  constructor
  · intro hframe
    obtain rfl := Option.some.inj hframe
    rw [← hcomplete] at henc
    have hpkt := Option.some.inj ((decodeFrame_built henc).symm.trans hdecode)
    have htype : publishHeader pub = pkt.typeFlags := congrArg MqttPacket.typeFlags hpkt
    rw [hcomplete] at henc
    exact ⟨htype, enc, henc, by rw [htype]⟩
  · rintro ⟨htype, enc', henc', rfl⟩
    rw [htype, Option.some.inj (henc.symm.trans henc')]

/-- What `packet_build_publish` builds is parsed back if and only if the retain byte adds
no foreign bits to the first one.  A PUBLISH that was parsed is built again as it was, if its
remaining length was written with as few bytes as possible. -/
theorem publish_frames (pub : MqttPublish) (frame : Bytes) :
    (∀ outCap, packetBuildPublish pub outCap = some frame →
      packetBuildPublish pub (MQTT_MAX_PACKET_SIZE + 8) = some frame) ∧
    (0 ∉ pub.topic → packetBuildPublish pub (MQTT_MAX_PACKET_SIZE + 8) = some frame →
      (RoundTrips pub frame ↔ RetainFits pub)) ∧
    ∀ pkt, decodeFrame frame = some pkt → pkt.buf.length = pkt.remainingLen →
      pkt.buf.length ≤ MQTT_MAX_PACKET_SIZE → packetParsePublish pkt = some pub →
      pub.topic ≠ [] → hasWildcard pub.topic = false →
      (packetBuildPublish pub (MQTT_MAX_PACKET_SIZE + 8) = some frame ↔
        pkt.typeFlags &&& 0xF0 = PacketType.publish ∧
          ∃ enc, packetEncodeRemainingLen pkt.remainingLen = some enc ∧
            frame = pkt.typeFlags :: (enc ++ pkt.buf)) :=
  ⟨fun _ ↦ packetBuildPublish_room, fun hnul h ↦ roundTrips_iff hnul h,
    fun _ ↦ rebuild_iff⟩

namespace FrameSample

/-- A QoS 0 message on the topic `t`. -/
def message (retain : UInt8) : MqttPublish := ⟨[0x74], [0x00, 0x01, 0x78], 0, retain, 0, 0⟩

def frame (retain : UInt8) : Bytes :=
  [0x30 ||| retain, 0x06, 0x00, 0x01, 0x74, 0x00, 0x01, 0x78]

end FrameSample

open FrameSample

theorem retained_frame_roundTrips : RoundTrips (message 1) (frame 1) :=
  ((publish_frames (message 1) (frame 1)).2.1 (by decide) (by decide +kernel)).mpr
    ⟨fun _ ↦ by decide, by decide, by decide⟩

/-- With a retain byte of 2 the frame is one of QoS 1, and the payload begins with what is
read as the packet id. -/
theorem raw_retain_misparsed : ∃ (pub : MqttPublish) (f : Bytes) (pkt : MqttPacket)
    (pub' : MqttPublish), packetBuildPublish pub (MQTT_MAX_PACKET_SIZE + 8) = some f ∧
      decodeFrame f = some pkt ∧ packetParsePublish pkt = some pub' ∧ pub.qos = 0 ∧
      pub'.qos = 1 ∧ pub'.payload ≠ pub.payload ∧ ¬ RoundTrips pub f := by
  have hbuild : packetBuildPublish (message 2) (MQTT_MAX_PACKET_SIZE + 8) = some (frame 2) := by
    decide +kernel
  refine ⟨message 2, frame 2, ⟨0x32, 6, [0x00, 0x01, 0x74, 0x00, 0x01, 0x78]⟩,
    ⟨[0x74], [0x78], 1, 0, 0, 1⟩, hbuild, by decide +kernel, by decide +kernel, rfl, rfl,
    by decide, fun hround ↦ ?_⟩
  have hfits := (roundTrips_iff (by decide) hbuild).mp hround
  exact absurd hfits.qos (by decide)

end MqttBroker
