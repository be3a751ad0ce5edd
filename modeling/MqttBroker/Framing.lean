import MqttBroker.Client.Timeouts

/-!
# Framing

`recv_packet` of the broker's own clients, `recv_mqtt_packet` of the mesh
ingress and `packet_decode_remaining_len`, which read the length bytes of a
packet in three loops of their own.
-/

namespace MqttBroker

open TickReader

/-! ## The reader of the mesh ingress -/

section

variable {ω : Type} (recv : ℕ → Reader ω HeaderError Bytes)

/-- The loop of `recv_mqtt_packet` over the length bytes.  Its test of `mult`
ends it in the fourth round at the latest, so four rounds are enough. -/
def recvMqttLength : ℕ → ℕ → ℕ → Reader ω HeaderError ℕ
  | 0, _, _ => Reader.stop (.refused .malformedLength)
  | k + 1, rlen, mult => do
      let b ← recv 1
      let rlen := rlen + (b.headD 0 &&& 0x7F).toNat * mult
      if 128 * 128 * 128 < mult * 128 then Reader.stop (.refused .malformedLength)
      else if b.headD 0 &&& 0x80 = 0 then pure rlen
      else recvMqttLength k rlen (mult * 128)

/-- `recv_mqtt_packet` with the given `recv_all_timeout`. -/
def recvMqttPacketWith : Reader ω HeaderError MqttPacket := do
  let b ← recv 1
  let typeFlags := b.headD 0
  let rlen ← recvMqttLength recv 4 0 1
  if MQTT_MAX_PACKET_SIZE < rlen then Reader.stop (.refused .tooLarge)
  else if 0 < rlen then do
    let buf ← recv rlen
    pure ⟨typeFlags, rlen, buf⟩
  else pure ⟨typeFlags, rlen, []⟩

end

/-- `recv_mqtt_packet`; `recv_all_timeout` has the body of `recv_exact`. -/
def recvMqttPacket : Reader Wire HeaderError MqttPacket := recvMqttPacketWith recvExact

/-! ## The two readers -/

section

variable {ω : Type} {recv : ℕ → Reader ω HeaderError Bytes}

/-- From the second length byte on the two loops do the same. -/
theorem recvLength_eq (k : ℕ) (hk : k ≤ 2) (last : UInt8) (rlen : ℕ) :
    recvLength recv k last rlen (128 ^ (3 - k)) =
      if last &&& 0x80 = 0 then pure rlen
      else recvMqttLength recv (k + 1) rlen (128 ^ (3 - k)) := by
  induction k generalizing last rlen with
  | zero =>
      unfold recvLength recvMqttLength
      norm_num
  | succ k ih =>
      have hmult : 128 ^ (3 - (k + 1)) * 128 = 128 ^ (3 - k) := by
        rw [← pow_succ]
        congr 1
        omega
      have hfits : ¬ 128 * 128 * 128 < 128 ^ (3 - k) := by
        have hpow : 128 ^ (3 - k) ≤ 128 ^ 3 := Nat.pow_le_pow_right (by decide) (by omega)
        omega
      unfold recvLength
      rw [recvMqttLength]
      simp only [hmult, hfits, if_false, ih (by omega)]

theorem recvMqttLength_four :
    recvMqttLength recv 4 0 1 =
      recv 1 >>= fun b ↦ recvLength recv 2 (b.headD 0) (b.headD 0 &&& 0x7F).toNat 128 := by
  rw [recvMqttLength]
  congr 1
  funext b
  have htwo : recvLength recv 2 (b.headD 0) (b.headD 0 &&& 0x7F).toNat 128 =
      if b.headD 0 &&& 0x80 = 0 then pure (b.headD 0 &&& 0x7F).toNat
      else recvMqttLength recv 3 (b.headD 0 &&& 0x7F).toNat 128 :=
    recvLength_eq 2 le_rfl _ _
  rw [htwo, Nat.zero_add, Nat.mul_one, Nat.one_mul]
  simp only [show ¬ 128 * 128 * 128 < 128 by decide, if_false]

/-- A `recv` of two bytes is two of one byte. -/
def SplitsPair (recv : ℕ → Reader ω HeaderError Bytes) : Prop :=
  recv 2 = recv 1 >>= fun a ↦ recv 1 >>= fun b ↦ pure [a.headD 0, b.headD 0]

theorem recvMqttPacketWith_eq (h : SplitsPair recv) :
    recvMqttPacketWith recv = recvPacketWith recv := by
  unfold recvMqttPacketWith recvPacketWith
  rw [h, recvMqttLength_four]
  simp only [Reader.bind_assoc, Reader.pure_bind]
  rfl

end

theorem splitsPair_takeExact :
    SplitsPair (takeExact : ℕ → Reader (Ticks UInt8) HeaderError Bytes) := by
  funext l
  show _ = Reader.andThen _ _ l
  rcases l with _ | ⟨_ | a, l⟩
  · rfl
  · rfl
  · rcases l with _ | ⟨_ | b, l⟩ <;> rfl

/-- Both readers, on single bytes. -/
theorem recvMqttTicks_eq : recvMqttPacketWith takeExact = recvTicks :=
  recvMqttPacketWith_eq splitsPair_takeExact

theorem recvMqttLength_simulates {ω ω' : Type} {φ : ω → ω'}
    {recv : ℕ → Reader ω HeaderError Bytes} {recv' : ℕ → Reader ω' HeaderError Bytes}
    (h : ∀ n, Simulates φ (recv n) (recv' n)) (k rlen mult : ℕ) :
    Simulates φ (recvMqttLength recv k rlen mult) (recvMqttLength recv' k rlen mult) := by
  induction k generalizing rlen mult with
  | zero => exact .stop φ _
  | succ k ih =>
      rw [recvMqttLength, recvMqttLength]
      refine (h 1).bind fun b ↦ ?_
      dsimp only
      split_ifs
      · exact .stop φ _
      · exact .pure φ _
      · exact ih _ _

theorem recvMqttPacket_simulates : Simulates Wire.ticks recvMqttPacket recvTicks := by
  rw [← recvMqttTicks_eq]
  unfold recvMqttPacket recvMqttPacketWith
  refine (recvExact_simulates 1).bind fun b ↦
    (recvMqttLength_simulates recvExact_simulates _ _ _).bind fun rlen ↦ ?_
  split_ifs
  · exact .stop _ _
  · exact (recvExact_simulates rlen).bind fun buf ↦ .pure _ _
  · exact .pure _ _

/-! ## The length bytes -/

section

variable {j k value mult v n : ℕ} {b : UInt8} {as frame : Bytes} {l l' : Ticks UInt8}

@[simp] theorem decodeRemainingLenFrom_nil :
    decodeRemainingLenFrom k value mult [] = none := by
  cases k <;> rfl

theorem decodeRemainingLenFrom_last (hb : b &&& 0x80 = 0) :
    decodeRemainingLenFrom (k + 1) value mult (b :: as) =
      some (value + (b &&& 0x7F).toNat * mult, 1) := by
  simp [decodeRemainingLenFrom, hb]

theorem decodeRemainingLenFrom_more (hb : b &&& 0x80 ≠ 0) :
    decodeRemainingLenFrom (k + 1) value mult (b :: as) = some (v, n) ↔
      ∃ m, n = m + 1 ∧
        decodeRemainingLenFrom k (value + (b &&& 0x7F).toNat * mult) (mult * 128) as =
          some (v, m) := by
  simp only [decodeRemainingLenFrom, hb, ne_eq, not_false_eq_true, if_true, Option.map_eq_some_iff,
    Prod.exists, Prod.mk.injEq]
  constructor
  · rintro ⟨v', m, hdec, rfl, rfl⟩
    exact ⟨m, rfl, hdec⟩
  · rintro ⟨m, rfl, hdec⟩
    exact ⟨v, m, hdec, rfl, rfl⟩

/-- The decoder looks at the bytes it counts, and at no other. -/
theorem decodeRemainingLenFrom_iff_take :
    decodeRemainingLenFrom k value mult as = some (v, n) ↔
      decodeRemainingLenFrom k value mult (as.take n) = some (v, n) ∧ n ≤ as.length := by
  induction k generalizing value mult as n with
  | zero => simp [decodeRemainingLenFrom]
  | succ k ih =>
      cases as with
      | nil => simp
      | cons b as =>
          cases n with
          | zero =>
              by_cases hb : b &&& 0x80 = 0
              · simp [decodeRemainingLenFrom_last hb]
              · simp [decodeRemainingLenFrom_more hb]
          | succ n =>
              rw [List.take_succ_cons]
              by_cases hb : b &&& 0x80 = 0
              · rw [decodeRemainingLenFrom_last hb, decodeRemainingLenFrom_last hb]
                simp only [Option.some.injEq, Prod.mk.injEq, List.length_cons]
                omega
              · rw [decodeRemainingLenFrom_more hb, decodeRemainingLenFrom_more hb]
                simp only [Nat.add_right_cancel_iff, exists_eq_left', List.length_cons,
                  Nat.add_le_add_iff_right]
                exact ih

theorem decodeRemainingLenFrom_le (h : decodeRemainingLenFrom k value mult as = some (v, n)) :
    n ≤ k := by
  induction k generalizing value mult as n with
  | zero => simp [decodeRemainingLenFrom] at h
  | succ k ih =>
      cases as with
      | nil => simp at h
      | cons b as =>
          by_cases hb : b &&& 0x80 = 0
          · rw [decodeRemainingLenFrom_last hb] at h
            simp only [Option.some.injEq, Prod.mk.injEq] at h
            omega
          · obtain ⟨m, rfl, hm⟩ := (decodeRemainingLenFrom_more hb).mp h
            exact Nat.succ_le_succ (ih hm)

theorem decodeRemainingLenFrom_append (rest : Bytes)
    (h : decodeRemainingLenFrom k value mult frame = some (v, frame.length)) :
    decodeRemainingLenFrom k value mult (frame ++ rest) = some (v, frame.length) := by
  rw [decodeRemainingLenFrom_iff_take, List.take_left]
  exact ⟨h, by simp⟩

theorem recvMqttLength_nil :
    recvMqttLength takeExact (k + 1) value mult [] = (.error .closed, []) := rfl

theorem recvMqttLength_timeout :
    recvMqttLength takeExact (k + 1) value mult (none :: l) = (.error .timeout, l) := rfl

theorem recvMqttLength_cons :
    recvMqttLength takeExact (k + 1) value mult (some b :: l) =
      if 128 * 128 * 128 < mult * 128 then (.error (.refused .malformedLength), l)
      else if b &&& 0x80 = 0 then (.ok (value + (b &&& 0x7F).toNat * mult), l)
      else recvMqttLength takeExact k (value + (b &&& 0x7F).toNat * mult) (mult * 128) l := by
  rw [recvMqttLength]
  have hone : (takeExact 1 : Reader (Ticks UInt8) HeaderError Bytes) (some b :: l) =
      (.ok [b], l) := rfl
  rw [Reader.bind_ok hone]
  dsimp only [List.headD_cons]
  by_cases hover : 128 * 128 * 128 < mult * 128
  · simp only [hover, if_true]
    rfl
  · by_cases hlast : b &&& 0x80 = 0
    · simp only [hover, hlast, if_true, if_false]
      rfl
    · simp only [hover, hlast, if_false]

theorem multiplier_over_iff : 128 * 128 * 128 < 128 ^ j * 128 ↔ 3 ≤ j := by
  rw [← pow_succ, show 128 * 128 * 128 = 128 ^ 3 from rfl, Nat.pow_lt_pow_iff_right (by decide)]
  omega

/-- A length the loop accepts has at most three bytes and is what the decoder
finds in them. -/
theorem recvMqttLength_ok (hjk : j + k = 4)
    (h : recvMqttLength takeExact k value (128 ^ j) l = (.ok v, l')) :
    ∃ frame : Bytes, l = frame.map some ++ l' ∧ j + frame.length ≤ 3 ∧
      decodeRemainingLenFrom k value (128 ^ j) frame = some (v, frame.length) := by
  induction k generalizing j value l with
  | zero => simp [recvMqttLength, Reader.stop] at h
  | succ k ih =>
      rcases l with _ | ⟨_ | b, l⟩
      · simp [recvMqttLength_nil] at h
      · simp [recvMqttLength_timeout] at h
      · simp only [recvMqttLength_cons, multiplier_over_iff] at h
        by_cases hj : 3 ≤ j
        · simp [hj] at h
        · by_cases hb : b &&& 0x80 = 0
          · simp only [hj, hb, if_true, if_false, Prod.mk.injEq, Except.ok.injEq] at h
            obtain ⟨rfl, rfl⟩ := h
            exact ⟨[b], rfl, by simp only [List.length_singleton]; omega,
              decodeRemainingLenFrom_last hb⟩
          · rw [if_neg hj, if_neg hb, ← pow_succ] at h
            obtain ⟨frame, rfl, hlen, hdec⟩ := ih (by omega) h
            refine ⟨b :: frame, rfl, by simp only [List.length_cons]; omega, ?_⟩
            exact (decodeRemainingLenFrom_more hb).mpr
              ⟨frame.length, rfl, by rwa [← pow_succ]⟩

theorem decodeRemainingLenFrom_pos (h : decodeRemainingLenFrom k value mult as = some (v, n)) :
    0 < n := by
  cases n with
  | zero => simpa using (decodeRemainingLenFrom_iff_take.mp h).1
  | succ n => exact n.succ_pos

/-- The loop refuses only what the decoder does not end in three bytes. -/
theorem recvMqttLength_refused (hjk : j + k = 4) {e : HeaderError}
    (h : recvMqttLength takeExact k value (128 ^ j) l = (.error (.refused e), l')) :
    ∃ frame : Bytes, l = frame.map some ++ l' ∧ ∀ rest v n,
      decodeRemainingLenFrom k value (128 ^ j) (frame ++ rest) = some (v, n) → 3 < j + n := by
  induction k generalizing j value l with
  | zero =>
      obtain ⟨-, rfl⟩ := Prod.mk.inj h
      exact ⟨[], rfl, by simp [decodeRemainingLenFrom]⟩
  | succ k ih =>
      rcases l with _ | ⟨_ | b, l⟩
      · simp [recvMqttLength_nil] at h
      · simp [recvMqttLength_timeout] at h
      · simp only [recvMqttLength_cons, multiplier_over_iff] at h
        by_cases hj : 3 ≤ j
        · obtain ⟨-, rfl⟩ := Prod.mk.inj (if_pos hj ▸ h)
          refine ⟨[b], rfl, fun rest v n hdec ↦ ?_⟩
          have hpos := decodeRemainingLenFrom_pos hdec
          omega
        · by_cases hb : b &&& 0x80 = 0
          · simp [hj, hb] at h
          · rw [if_neg hj, if_neg hb, ← pow_succ] at h
            obtain ⟨frame, rfl, hdec⟩ := ih (by omega) h
            refine ⟨b :: frame, rfl, fun rest v n hmore ↦ ?_⟩
            obtain ⟨m, rfl, hm⟩ := (decodeRemainingLenFrom_more hb).mp hmore
            have hlong := hdec rest v m (by rwa [← pow_succ] at hm)
            omega

end

/-! ## Packets -/

section

variable {l l' : Ticks UInt8} {pkt : MqttPacket}

/-- An accepted packet: its type byte, a length of at most three bytes, and a
body of that length. -/
theorem recvTicks_ok (h : recvTicks l = (.ok pkt, l')) :
    ∃ (t : UInt8) (frame body : Bytes),
      l = (t :: (frame ++ body)).map some ++ l' ∧ frame.length ≤ 3 ∧
        packetDecodeRemainingLen frame = some (body.length, frame.length) ∧
        body.length ≤ MQTT_MAX_PACKET_SIZE ∧ pkt = ⟨t, body.length, body⟩ := by
  rw [← recvMqttTicks_eq, recvMqttPacketWith] at h
  obtain ⟨b, l₁, hb, hheader⟩ := Reader.bind_eq_ok h
  obtain ⟨rfl, hone⟩ := takeExact_ok hb
  obtain ⟨t, rfl⟩ := List.length_eq_one_iff.mp hone
  obtain ⟨rlen, l₂, hlen, hpacket⟩ := Reader.bind_eq_ok hheader
  obtain ⟨frame, rfl, hthree, hdec⟩ := recvMqttLength_ok (j := 0) rfl hlen
  rw [Nat.zero_add] at hthree
  split_ifs at hpacket with hlarge hpos
  · simp [Reader.stop] at hpacket
  · obtain ⟨body, l₃, hbody, hdone⟩ := Reader.bind_eq_ok hpacket
    obtain ⟨rfl, rfl⟩ := takeExact_ok hbody
    obtain ⟨hpkt, rfl⟩ := Prod.mk.inj hdone
    exact ⟨t, frame, body, by simp, hthree, hdec, by omega, (Except.ok.inj hpkt).symm⟩
  · obtain rfl : rlen = 0 := by omega
    obtain ⟨hpkt, rfl⟩ := Prod.mk.inj hpacket
    exact ⟨t, frame, [], by simp, hthree, hdec, Nat.zero_le _, (Except.ok.inj hpkt).symm⟩

/-- A refused header holds no length that ends in three bytes and fits. -/
theorem recvTicks_refused {e : HeaderError} (h : recvTicks l = (.error (.refused e), l')) :
    ∃ (t : UInt8) (frame : Bytes), l = (t :: frame).map some ++ l' ∧ ∀ rest v n,
      packetDecodeRemainingLen (frame ++ rest) = some (v, n) → v ≤ MQTT_MAX_PACKET_SIZE →
        3 < n := by
  rw [← recvMqttTicks_eq, recvMqttPacketWith] at h
  rcases Reader.bind_eq_error h with hb | ⟨b, l₁, hb, hheader⟩
  · exact absurd hb (takeExact_ne_refused _ _ _ _)
  obtain ⟨rfl, hone⟩ := takeExact_ok hb
  obtain ⟨t, rfl⟩ := List.length_eq_one_iff.mp hone
  rcases Reader.bind_eq_error hheader with hlen | ⟨rlen, l₂, hlen, hpacket⟩
  · obtain ⟨frame, rfl, hdec⟩ := recvMqttLength_refused (j := 0) rfl hlen
    refine ⟨t, frame, by simp, fun rest v n hv hmax ↦ ?_⟩
    have hlong := hdec rest v n hv
    omega
  obtain ⟨frame, rfl, -, hdec⟩ := recvMqttLength_ok (j := 0) rfl hlen
  split_ifs at hpacket with hlarge hpos
  · obtain ⟨-, rfl⟩ := Prod.mk.inj hpacket
    refine ⟨t, frame, by simp, fun rest v n hv hmax ↦ ?_⟩
    have hsame := (decodeRemainingLenFrom_append rest hdec).symm.trans hv
    simp only [Option.some.injEq, Prod.mk.injEq] at hsame
    omega
  · rcases Reader.bind_eq_error hpacket with hbody | ⟨body, l₃, hbody, hdone⟩
    · exact absurd hbody (takeExact_ne_refused _ _ _ _)
    · cases hdone
  · cases hpacket

end

/-! ## Agreement -/

/-- The stream meets no receive error while one of the readers runs. -/
def Uninterrupted (w : Wire) : Prop :=
  ∀ e, (recvPacket w).1 = .error e ∨ (recvMqttPacket w).1 = .error e → ∃ h, e = .refused h

/-- `packet_decode_remaining_len` accepts the bytes behind the type byte, as
`n` bytes with a value a packet may have. -/
def Framed (bs : Bytes) (value n : ℕ) : Prop :=
  packetDecodeRemainingLen bs.tail = some (value, n) ∧ value ≤ MQTT_MAX_PACKET_SIZE

/-- A reader accepts exactly the framed packets, reads no further and yields
what was framed. -/
structure FramesAsDecoded (recv : Reader Wire HeaderError MqttPacket) (w : Wire) : Prop where
  accepts_iff : (∃ pkt, (recv w).1 = .ok pkt) ↔ ∃ value n, Framed w.bytes value n
  yields : ∀ value n, Framed w.bytes value n →
    (recv w).1 = .ok ⟨w.bytes.headD 0, value, (w.bytes.drop (1 + n)).take value⟩
  consumes : ∀ value n, Framed w.bytes value n →
    w.bytes.length = 1 + n + value + (recv w).2.bytes.length

/-- Three length bytes that continue and a fourth that does not, for a value a
packet may have. -/
def FourByteLength : Bytes → Prop
  | b₁ :: b₂ :: b₃ :: b₄ :: _ =>
      b₁ &&& 0x80 ≠ 0 ∧ b₂ &&& 0x80 ≠ 0 ∧ b₃ &&& 0x80 ≠ 0 ∧ b₄ &&& 0x80 = 0 ∧
        (b₁ &&& 0x7F).toNat + (b₂ &&& 0x7F).toNat * 128 + (b₃ &&& 0x7F).toNat * 128 ^ 2 +
          (b₄ &&& 0x7F).toNat * 128 ^ 3 ≤ MQTT_MAX_PACKET_SIZE
  | _ => False

theorem fourByteLength_iff {bs : Bytes} :
    FourByteLength bs ↔
      ∃ v, packetDecodeRemainingLen bs = some (v, 4) ∧ v ≤ MQTT_MAX_PACKET_SIZE := by
  rcases bs with _ | ⟨b₁, _ | ⟨b₂, _ | ⟨b₃, _ | ⟨b₄, bs⟩⟩⟩⟩
  · simp [FourByteLength, packetDecodeRemainingLen]
  · by_cases h₁ : b₁ &&& 0x80 = 0 <;>
      simp [FourByteLength, packetDecodeRemainingLen, decodeRemainingLenFrom, h₁]
  · by_cases h₁ : b₁ &&& 0x80 = 0 <;> by_cases h₂ : b₂ &&& 0x80 = 0 <;>
      simp [FourByteLength, packetDecodeRemainingLen, decodeRemainingLenFrom, h₁, h₂]
  · by_cases h₁ : b₁ &&& 0x80 = 0 <;> by_cases h₂ : b₂ &&& 0x80 = 0 <;>
      by_cases h₃ : b₃ &&& 0x80 = 0 <;>
      simp [FourByteLength, packetDecodeRemainingLen, decodeRemainingLenFrom, h₁, h₂, h₃]
  · by_cases h₁ : b₁ &&& 0x80 = 0 <;> by_cases h₂ : b₂ &&& 0x80 = 0 <;>
      by_cases h₃ : b₃ &&& 0x80 = 0 <;> by_cases h₄ : b₄ &&& 0x80 = 0 <;>
      simp [FourByteLength, packetDecodeRemainingLen, decodeRemainingLenFrom, h₁, h₂, h₃, h₄]

section

variable {recv : Reader Wire HeaderError MqttPacket} {w : Wire}

theorem FramesAsDecoded.of_accepted (hsim : Simulates Wire.ticks recv recvTicks) {pkt : MqttPacket}
    (h : (recv w).1 = .ok pkt) :
    ∃ v n, n ≤ 3 ∧ Framed w.bytes v n ∧
      pkt = ⟨w.bytes.headD 0, v, (w.bytes.drop (1 + n)).take v⟩ ∧
      w.bytes.length = 1 + n + v + (recv w).2.bytes.length := by
  have hticks : recvTicks w.ticks = (.ok pkt, (recv w).2.ticks) := by rw [hsim w, h]
  obtain ⟨t, frame, body, hl, hthree, hdec, hmax, rfl⟩ := recvTicks_ok hticks
  have hbytes : w.bytes = t :: (frame ++ (body ++ (recv w).2.bytes)) := by
    rw [Wire.bytes, hl, List.reduceOption_append, reduceOption_map_some]
    simp [Wire.bytes]
  refine ⟨body.length, frame.length, hthree, ⟨?_, hmax⟩, ?_, ?_⟩
  · rw [hbytes]
    exact decodeRemainingLenFrom_append _ hdec
  · rw [hbytes]
    simp [Nat.add_comm 1]
  · rw [hbytes]
    simp only [List.length_cons, List.length_append]
    omega

/-- Without a four-byte length a reader frames what the decoder does. -/
theorem framesAsDecoded (hsim : Simulates Wire.ticks recv recvTicks)
    (herr : ∀ e, (recv w).1 = .error e → ∃ h, e = .refused h)
    (hfour : ¬ FourByteLength w.bytes.tail) : FramesAsDecoded recv w := by
  have haccepts : ∀ v n, Framed w.bytes v n → ∃ pkt, (recv w).1 = .ok pkt := by
    intro v n hframed
    rcases hrun : (recv w).1 with e | pkt
    · obtain ⟨e, rfl⟩ := herr e hrun
      have hticks : recvTicks w.ticks = (.error (.refused e), (recv w).2.ticks) := by
        rw [hsim w, hrun]
      obtain ⟨t, frame, hl, hdec⟩ := recvTicks_refused hticks
      have hbytes : w.bytes = t :: (frame ++ (recv w).2.bytes) := by
        rw [Wire.bytes, hl, List.reduceOption_append, reduceOption_map_some]
        simp [Wire.bytes]
      have hlong : 3 < n := hdec _ v n (by rw [← hframed.1, hbytes]; rfl) hframed.2
      have hle : n ≤ 4 := decodeRemainingLenFrom_le hframed.1
      obtain rfl : n = 4 := by omega
      exact absurd (fourByteLength_iff.mpr ⟨v, hframed⟩) hfour
    · exact ⟨pkt, rfl⟩
  have hsame : ∀ v n, Framed w.bytes v n →
      (recv w).1 = .ok ⟨w.bytes.headD 0, v, (w.bytes.drop (1 + n)).take v⟩ ∧
        w.bytes.length = 1 + n + v + (recv w).2.bytes.length := by
    intro v n hframed
    obtain ⟨pkt, hpkt⟩ := haccepts v n hframed
    obtain ⟨v', n', -, hframed', hval, hlen⟩ := FramesAsDecoded.of_accepted hsim hpkt
    obtain ⟨rfl, rfl⟩ : v = v' ∧ n = n' := by
      simpa using hframed.1.symm.trans hframed'.1
    exact ⟨hpkt.trans (by rw [hval]), hlen⟩
  refine ⟨⟨?_, ?_⟩, fun v n h ↦ (hsame v n h).1, fun v n h ↦ (hsame v n h).2⟩
  · rintro ⟨pkt, hpkt⟩
    obtain ⟨v, n, -, hframed, -⟩ := FramesAsDecoded.of_accepted hsim hpkt
    exact ⟨v, n, hframed⟩
  · rintro ⟨v, n, hframed⟩
    exact haccepts v n hframed

/-- A reader refuses every four-byte length. -/
theorem FramesAsDecoded.not_fourByteLength (hsim : Simulates Wire.ticks recv recvTicks)
    (h : FramesAsDecoded recv w) : ¬ FourByteLength w.bytes.tail := by
  intro hfour
  obtain ⟨v, hframed⟩ := fourByteLength_iff.mp hfour
  obtain ⟨pkt, hpkt⟩ := h.accepts_iff.mpr ⟨v, 4, hframed⟩
  obtain ⟨v', n, hthree, hframed', -⟩ := FramesAsDecoded.of_accepted hsim hpkt
  obtain ⟨-, rfl⟩ : v = v' ∧ 4 = n := by
    simpa using hframed.1.symm.trans hframed'.1
  omega

end

/-- The three length loops agree, unless a length has four bytes. -/
theorem framing_agrees_iff {w : Wire} (h : Uninterrupted w) :
    (FramesAsDecoded recvPacket w ∧ FramesAsDecoded recvMqttPacket w) ↔
      ¬ FourByteLength w.bytes.tail := by
  constructor
  · rintro ⟨hclient, -⟩
    exact hclient.not_fourByteLength recvPacket_simulates
  · intro hfour
    exact ⟨framesAsDecoded recvPacket_simulates (fun e he ↦ h e (.inl he)) hfour,
      framesAsDecoded recvMqttPacket_simulates (fun e he ↦ h e (.inr he)) hfour⟩

theorem uninterrupted_of_ok {w : Wire} (pkt pkt' : MqttPacket) (h : (recvPacket w).1 = .ok pkt)
    (h' : (recvMqttPacket w).1 = .ok pkt') : Uninterrupted w := by
  rintro e (he | he)
  · exact absurd (h.symm.trans he) (by simp)
  · exact absurd (h'.symm.trans he) (by simp)

/-- A PUBLISH of three bytes with a length padded to two. -/
theorem framing_agrees_iff_padded_publish :
    (FramesAsDecoded recvPacket [.data 0x30 [0x83, 0x00], .data 0x00 [0x01, 0x61]] ∧
        FramesAsDecoded recvMqttPacket [.data 0x30 [0x83, 0x00], .data 0x00 [0x01, 0x61]]) ↔
      ¬ FourByteLength [0x83, 0x00, 0x00, 0x01, 0x61] :=
  framing_agrees_iff (w := [.data 0x30 [0x83, 0x00], .data 0x00 [0x01, 0x61]])
    (uninterrupted_of_ok ⟨0x30, 3, [0x00, 0x01, 0x61]⟩ ⟨0x30, 3, [0x00, 0x01, 0x61]⟩ rfl rfl)

/-- A PINGREQ whose length 0 is padded to four bytes: the decoder accepts it. -/
theorem four_byte_pingreq_refused :
    ¬ ∀ w, Uninterrupted w → FramesAsDecoded recvPacket w ∧ FramesAsDecoded recvMqttPacket w := by
  intro hall
  have hrun : (recvPacket [.data 0xC0 [0x80, 0x80, 0x80, 0x00]]).1 =
      .error (.refused .malformedLength) := rfl
  have hmesh : (recvMqttPacket [.data 0xC0 [0x80, 0x80, 0x80, 0x00]]).1 =
      .error (.refused .malformedLength) := rfl
  have huninterrupted : Uninterrupted [.data 0xC0 [0x80, 0x80, 0x80, 0x00]] := by
    rintro e (he | he)
    · exact ⟨.malformedLength, Except.error.inj (he.symm.trans hrun)⟩
    · exact ⟨.malformedLength, Except.error.inj (he.symm.trans hmesh)⟩
  have hframed : Framed (Wire.bytes [.data 0xC0 [0x80, 0x80, 0x80, 0x00]]) 0 4 :=
    ⟨rfl, Nat.zero_le _⟩
  obtain ⟨pkt, hpkt⟩ := (hall _ huninterrupted).1.accepts_iff.mpr ⟨0, 4, hframed⟩
  exact absurd (hrun.symm.trans hpkt) (by simp)

end MqttBroker
