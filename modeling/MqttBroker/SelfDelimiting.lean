import MqttBroker.RemainingLen

/-!
# Frames that tell their own length

All builders of `packet.c` against `packet_decode_remaining_len`.  Most of them write a
fixed length, `packet_build_publish` encodes it, and `packet_build_suback` writes its low byte.
-/

namespace MqttBroker

/-- A call of one of the builders. -/
inductive BuildCall where
  | connack (sessionPresent returnCode : UInt8)
  | suback (packetId : UInt16) (returnCodes : Bytes)
  | unsuback (packetId : UInt16)
  | publish (pub : MqttPublish)
  | puback (packetId : UInt16)
  | pubrec (packetId : UInt16)
  | pubrel (packetId : UInt16)
  | pubcomp (packetId : UInt16)
  | pingresp

namespace BuildCall

/-- The frame that is built into a buffer of `outCap` bytes. -/
def frame (outCap : ℕ) : BuildCall → Option Bytes
  | connack sessionPresent returnCode => packetBuildConnack sessionPresent returnCode outCap
  | suback packetId returnCodes => packetBuildSuback packetId returnCodes outCap
  | unsuback packetId => packetBuildUnsuback packetId outCap
  | publish pub => packetBuildPublish pub outCap
  | puback packetId => packetBuildPuback packetId outCap
  | pubrec packetId => packetBuildPubrec packetId outCap
  | pubrel packetId => packetBuildPubrel packetId outCap
  | pubcomp packetId => packetBuildPubcomp packetId outCap
  | pingresp => packetBuildPingresp outCap

/-- The remaining length of a SUBACK fits one length byte. -/
def ShortList : BuildCall → Prop
  | suback _ returnCodes => returnCodes.length ≤ 125
  | _ => True

end BuildCall

/-- The length bytes after the first byte are readable and tell where the frame ends. -/
def SelfDelimiting (frame : Bytes) : Prop :=
  ∃ value n, packetDecodeRemainingLen frame.tail = some (value, n) ∧ 1 + n + value = frame.length

/-- The first length byte holds the low seven bits. -/
theorem packetDecodeRemainingLen_mod {b : UInt8} {rest : Bytes} {v n : ℕ}
    (h : packetDecodeRemainingLen (b :: rest) = some (v, n)) : v % 128 = (b &&& 0x7F).toNat := by
  have hge : ∀ {k value multiplier v n : ℕ} {buf : Bytes},
      decodeRemainingLenFrom k value (multiplier * 128) buf = some (v, n) →
        v % 128 = value % 128 := by
    intro k
    induction k with
    | zero => exact fun h ↦ nomatch h
    | succ k ih =>
        intro value multiplier v n buf h
        cases buf with
        | nil => simp at h
        | cons c buf =>
            have hsum : (value + (c &&& 0x7F).toNat * (multiplier * 128)) % 128 = value % 128 := by
              rw [← Nat.mul_assoc]
              exact Nat.add_mul_mod_self_right _ _ _
            by_cases hc : c &&& 0x80 = 0
            · rw [decodeRemainingLenFrom_last hc] at h
              cases h
              exact hsum
            · obtain ⟨m, -, hm⟩ := (decodeRemainingLenFrom_more hc).mp h
              exact (ih hm).trans hsum
  have hb := septet_lt b
  by_cases hlast : b &&& 0x80 = 0
  · rw [packetDecodeRemainingLen, decodeRemainingLenFrom_last hlast] at h
    cases h
    omega
  · obtain ⟨m, -, hm⟩ := (decodeRemainingLenFrom_more hlast).mp h
    rw [hge hm]
    omega

theorem packetDecodeRemainingLen_one {b : UInt8} {rest : Bytes} (hb : b &&& 0x80 = 0) :
    packetDecodeRemainingLen (b :: rest) = some (b.toNat, 1) := by
  have hall : ∀ n < 256, UInt8.ofNat n &&& 0x80 = 0 →
      (UInt8.ofNat n &&& 0x7F).toNat = (UInt8.ofNat n).toNat := by
    decide +kernel
  have hvalue := hall b.toNat b.toNat_lt
  rw [UInt8.ofNat_toNat] at hvalue
  rw [packetDecodeRemainingLen, decodeRemainingLenFrom_last hb, hvalue hb]
  simp

/-! ## The builders -/

theorem selfDelimiting_two (t a b : UInt8) : SelfDelimiting [t, 2, a, b] := ⟨2, 1, rfl, rfl⟩

theorem selfDelimiting_ack {type : UInt8} {packetId : UInt16} {outCap : ℕ} {frame : Bytes}
    (h : packetBuildAck type packetId outCap = some frame) : SelfDelimiting frame := by
  unfold packetBuildAck at h
  split_ifs at h
  cases h
  exact selfDelimiting_two _ _ _

theorem selfDelimiting_publish {pub : MqttPublish} {outCap : ℕ} {frame : Bytes}
    (h : packetBuildPublish pub outCap = some frame) : SelfDelimiting frame := by
  unfold packetBuildPublish at h
  split_ifs at h
  obtain ⟨enc, henc, hout⟩ := Option.bind_eq_some_iff.mp h
  dsimp only at hout
  split_ifs at hout
  cases hout
  refine ⟨(publishBody pub).length, enc.length, packetDecode_packetEncode henc _, ?_⟩
  rw [List.length_cons, List.length_append]
  omega

/-- A count of `count` return codes, of which the low byte of `2 + count` is written. -/
theorem selfDelimiting_suback_iff {t : UInt8} {packetId : UInt16} {returnCodes : Bytes} :
    SelfDelimiting (t :: UInt8.ofNat (2 + returnCodes.length) ::
        (writeU16 packetId ++ returnCodes)) ↔ returnCodes.length ≤ 125 := by
  have hlength : (t :: UInt8.ofNat (2 + returnCodes.length) ::
      (writeU16 packetId ++ returnCodes)).length = 4 + returnCodes.length := by
    simp [writeU16]
    omega
  constructor
  · rintro ⟨v, n, hdec, hlen⟩
    rw [List.tail_cons] at hdec
    rw [hlength] at hlen
    have hmod := packetDecodeRemainingLen_mod hdec
    have hle : n ≤ 4 := decodeRemainingLenFrom_le hdec
    have hlow : (UInt8.ofNat (2 + returnCodes.length) &&& 0x7F).toNat =
        (2 + returnCodes.length) % 128 := by
      rw [UInt8.toNat_and, UInt8.toNat_ofNat']
      show (2 + returnCodes.length) % 2 ^ 8 &&& (2 ^ 7 - 1) = _
      rw [Nat.and_two_pow_sub_one_eq_mod]
      omega
    rw [hlow] at hmod
    -- modulo 128 the value and the size of the frame leave one number of length bytes
    obtain rfl : n = 1 := by
      have hpos := decodeRemainingLenFrom_pos hdec
      omega
    have hlt := decodeRemainingLenFrom_lt (by decide) hdec
    omega
  · intro hle
    have hbit : UInt8.ofNat (2 + returnCodes.length) &&& 0x80 = 0 :=
      (lengthByte_last (by omega : 2 + returnCodes.length < 128)).2
    refine ⟨_, 1, packetDecodeRemainingLen_one hbit, ?_⟩
    rw [hlength, UInt8.toNat_ofNat', Nat.mod_eq_of_lt (by omega)]
    omega

/-- Every frame that is built tells where it ends, but for a SUBACK with more than 125 return
codes. -/
theorem self_delimiting_iff (b : BuildCall) {outCap : ℕ} {frame : Bytes}
    (h : b.frame outCap = some frame) : SelfDelimiting frame ↔ b.ShortList := by
  cases b with
  | suback packetId returnCodes =>
      have hbuild : packetBuildSuback packetId returnCodes outCap = some frame := h
      unfold packetBuildSuback at hbuild
      split_ifs at hbuild
      cases hbuild
      exact selfDelimiting_suback_iff
  | connack sessionPresent returnCode =>
      have hbuild : packetBuildConnack sessionPresent returnCode outCap = some frame := h
      unfold packetBuildConnack at hbuild
      split_ifs at hbuild
      cases hbuild
      exact iff_of_true (selfDelimiting_two _ _ _) trivial
  | publish pub => exact iff_of_true (selfDelimiting_publish h) trivial
  | pingresp =>
      have hbuild : packetBuildPingresp outCap = some frame := h
      unfold packetBuildPingresp at hbuild
      split_ifs at hbuild
      cases hbuild
      exact iff_of_true ⟨0, 1, rfl, rfl⟩ trivial
  | unsuback packetId => exact iff_of_true (selfDelimiting_ack h) trivial
  | puback packetId => exact iff_of_true (selfDelimiting_ack h) trivial
  | pubrec packetId => exact iff_of_true (selfDelimiting_ack h) trivial
  | pubrel packetId => exact iff_of_true (selfDelimiting_ack h) trivial
  | pubcomp packetId => exact iff_of_true (selfDelimiting_ack h) trivial

/-- The largest SUBACK with one length byte. -/
theorem self_delimiting_iff_125 :
    SelfDelimiting (0x90 :: 0x7F :: (writeU16 1 ++ List.replicate 125 0)) ↔
      (BuildCall.suback 1 (List.replicate 125 0)).ShortList :=
  @self_delimiting_iff (.suback 1 (List.replicate 125 0)) 129 _ (by decide +kernel)

/-- With 126 return codes the length byte is `0x80`, which continues into the packet id. -/
theorem long_suback_not_self_delimiting :
    ¬ ∀ (b : BuildCall) (outCap : ℕ) (frame : Bytes), b.frame outCap = some frame →
      SelfDelimiting frame := by
  intro hall
  have hframe := hall (.suback 1 (List.replicate 126 0)) 130
    (0x90 :: 0x80 :: (writeU16 1 ++ List.replicate 126 0)) (by decide +kernel)
  obtain ⟨v, n, hdec, hlen⟩ := hframe
  have hread : packetDecodeRemainingLen
      (0x80 :: (writeU16 1 ++ List.replicate 126 0)) = some (0, 2) := by decide +kernel
  rw [List.tail_cons, hread] at hdec
  cases hdec
  simp [writeU16] at hlen

end MqttBroker
