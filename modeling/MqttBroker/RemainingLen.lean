import MqttBroker.Framing

/-!
# The remaining length in 32 bits

`packet_encode_remaining_len` and `packet_decode_remaining_len` with the `uint32_t` variables
that they compute in.  The length bytes are read and written as those of the numbers, the
encoding is the shortest one, and nothing overflows.
-/

namespace MqttBroker

/-! ## The code -/

/-- The loop of `packet_encode_remaining_len` with `k` rounds left. -/
def encodeLenLoop : ℕ → UInt32 → Option Bytes
  | 0, _ => none
  | k + 1, len =>
      let out := (len % 128).toUInt8
      let len := len / 128
      if 0 < len then (encodeLenLoop k len).map ((out ||| 0x80) :: ·) else some [out]

/-- `packet_encode_remaining_len` -/
def packetEncodeLen (len : UInt32) : Option Bytes := encodeLenLoop 4 len

/-- The loop of `packet_decode_remaining_len` with `k` rounds left. -/
def decodeLenLoop : ℕ → UInt32 → UInt32 → Bytes → Option (UInt32 × ℕ)
  | 0, _, _, _ => none
  | _ + 1, _, _, [] => none
  | k + 1, value, multiplier, b :: rest =>
      let value := value + (b &&& 0x7F).toUInt32 * multiplier
      let multiplier := multiplier * 128
      if b &&& 0x80 ≠ 0 then
        (decodeLenLoop k value multiplier rest).map fun r ↦ (r.1, r.2 + 1)
      else some (value, 1)

/-- `packet_decode_remaining_len`: the value and the number of bytes read. -/
def packetDecodeLen (buf : Bytes) : Option (UInt32 × ℕ) := decodeLenLoop 4 0 1 buf

/-- In every round of the loop the sum, the product and the next multiplier are below `2 ^ 32`. -/
def RoundsFit : ℕ → ℕ → ℕ → Bytes → Prop
  | 0, _, _, _ => True
  | _ + 1, _, _, [] => True
  | k + 1, value, multiplier, b :: rest =>
      value + (b &&& 0x7F).toNat * multiplier < 2 ^ 32 ∧ multiplier * 128 < 2 ^ 32 ∧
        (b &&& 0x80 ≠ 0 → RoundsFit k (value + (b &&& 0x7F).toNat * multiplier)
          (multiplier * 128) rest)

/-! ## The same in unbounded numbers -/

theorem encodeLenLoop_eq (k : ℕ) (len : UInt32) :
    encodeLenLoop k len = encodeRemainingLenFrom k len.toNat := by
  induction k generalizing len with
  | zero => rfl
  | succ k ih =>
      have hout : (len % 128).toUInt8 = UInt8.ofNat (len.toNat % 128) := by
        apply UInt8.toNat_inj.mp
        rw [UInt32.toNat_toUInt8, UInt32.toNat_mod, UInt8.toNat_ofNat']
        rfl
      have hdiv : (len / 128).toNat = len.toNat / 128 := by
        rw [UInt32.toNat_div]
        rfl
      have hmore : 0 < len / 128 ↔ 0 < len.toNat / 128 := by
        rw [UInt32.lt_iff_toNat_lt, hdiv]
        rfl
      simp only [encodeLenLoop, encodeRemainingLenFrom, hmore, hout, ih, hdiv]

theorem septet_lt (b : UInt8) : (b &&& 0x7F).toNat < 128 := by
  rw [UInt8.toNat_and]
  exact lt_of_le_of_lt Nat.and_le_right (by decide)

/-- Below `multiplier` there is room for seven more bits. -/
theorem add_septet_lt {value multiplier : ℕ} (h : value < multiplier) (b : UInt8) :
    value + (b &&& 0x7F).toNat * multiplier < multiplier * 128 := by
  have hb : (b &&& 0x7F).toNat * multiplier ≤ 127 * multiplier :=
    Nat.mul_le_mul_right _ (Nat.le_of_lt_succ (septet_lt b))
  omega

theorem roundsFit {k value multiplier : ℕ} (hlt : value < multiplier)
    (hfit : multiplier * 128 ^ k < 2 ^ 32) (buf : Bytes) : RoundsFit k value multiplier buf := by
  induction k generalizing value multiplier buf with
  | zero => trivial
  | succ k ih =>
      cases buf with
      | nil => trivial
      | cons b rest =>
          have hsum := add_septet_lt hlt b
          rw [pow_succ', ← Nat.mul_assoc] at hfit
          have hnext : multiplier * 128 < 2 ^ 32 :=
            (Nat.le_mul_of_pos_right _ (Nat.pow_pos (by decide))).trans_lt hfit
          exact ⟨hsum.trans hnext, hnext, fun _ ↦ ih hsum hfit rest⟩

/-- Where nothing overflows the loop computes what it computes in unbounded numbers. -/
theorem decodeLenLoop_eq {k : ℕ} {value multiplier : UInt32} {buf : Bytes}
    (h : RoundsFit k value.toNat multiplier.toNat buf) :
    (decodeLenLoop k value multiplier buf).map (fun r ↦ (r.1.toNat, r.2)) =
      decodeRemainingLenFrom k value.toNat multiplier.toNat buf := by
  induction k generalizing value multiplier buf with
  | zero => rfl
  | succ k ih =>
      cases buf with
      | nil => rfl
      | cons b rest =>
          obtain ⟨hsum, hmul, hrest⟩ := h
          have hproduct : (b &&& 0x7F).toNat * multiplier.toNat < 2 ^ 32 :=
            (Nat.le_add_left _ _).trans_lt hsum
          have hvalue : (value + (b &&& 0x7F).toUInt32 * multiplier).toNat =
              value.toNat + (b &&& 0x7F).toNat * multiplier.toNat := by
            rw [UInt32.toNat_add, UInt32.toNat_mul, UInt8.toNat_toUInt32,
              Nat.mod_eq_of_lt hproduct, Nat.mod_eq_of_lt hsum]
          have hnext : (multiplier * 128).toNat = multiplier.toNat * 128 := by
            rw [UInt32.toNat_mul]
            exact Nat.mod_eq_of_lt hmul
          by_cases hb : b &&& 0x80 = 0
          · simp only [decodeLenLoop, decodeRemainingLenFrom, hb, ne_eq, not_true_eq_false, if_false,
              Option.map_some, hvalue]
          · have hfit : RoundsFit k (value + (b &&& 0x7F).toUInt32 * multiplier).toNat
                (multiplier * 128).toNat rest := by
              rw [hvalue, hnext]
              exact hrest hb
            have hloop := ih hfit
            rw [hvalue, hnext] at hloop
            simp only [decodeLenLoop, decodeRemainingLenFrom, hb, ne_eq, not_false_eq_true,
              if_true, ← hloop, Option.map_map]
            rfl

theorem roundsFit_packet (buf : Bytes) : RoundsFit 4 0 1 buf :=
  roundsFit (by decide) (by decide) buf

theorem packetDecodeLen_eq (buf : Bytes) :
    (packetDecodeLen buf).map (fun r ↦ (r.1.toNat, r.2)) = packetDecodeRemainingLen buf := by
  have hfit : RoundsFit 4 (0 : UInt32).toNat (1 : UInt32).toNat buf := roundsFit_packet buf
  exact decodeLenLoop_eq hfit

/-! ## Bounds -/

/-- `n` length bytes hold `7 * n` bits. -/
theorem decodeRemainingLenFrom_lt {k value multiplier v n : ℕ} {buf : Bytes}
    (hlt : value < multiplier)
    (h : decodeRemainingLenFrom k value multiplier buf = some (v, n)) :
    v < multiplier * 128 ^ n := by
  induction k generalizing value multiplier buf n with
  | zero => simp [decodeRemainingLenFrom] at h
  | succ k ih =>
      cases buf with
      | nil => simp at h
      | cons b rest =>
          have hsum := add_septet_lt hlt b
          by_cases hb : b &&& 0x80 = 0
          · rw [decodeRemainingLenFrom_last hb] at h
            cases h
            simpa using hsum
          · obtain ⟨m, rfl, hm⟩ := (decodeRemainingLenFrom_more hb).mp h
            have hv := ih hsum hm
            rwa [Nat.mul_assoc, ← pow_succ'] at hv

/-- An encoding of more than one byte needs its last byte. -/
theorem encodeRemainingLenFrom_le {k len : ℕ} {enc : Bytes}
    (h : encodeRemainingLenFrom k len = some enc) :
    enc.length = 1 ∨ 128 ^ (enc.length - 1) ≤ len := by
  induction k generalizing len enc with
  | zero => simp [encodeRemainingLenFrom] at h
  | succ k ih =>
      rw [encodeRemainingLenFrom] at h
      split_ifs at h with hmore
      · obtain ⟨tail, htail, rfl⟩ := Option.map_eq_some_iff.mp h
        right
        rw [List.length_cons, Nat.add_sub_cancel]
        have hpow : 128 ^ (tail.length - 1) ≤ len / 128 := by
          rcases ih htail with hone | hle
          · rw [hone]
            exact hmore
          · exact hle
        have hpos : 0 < tail.length := by
          rcases ih htail with hone | -
          · omega
          · by_contra hzero
            obtain rfl := List.length_eq_zero_iff.mp (Nat.eq_zero_of_not_pos hzero)
            cases k with
            | zero => cases htail
            | succ k =>
                rw [encodeRemainingLenFrom] at htail
                split_ifs at htail
                · obtain ⟨_, -, hnil⟩ := Option.map_eq_some_iff.mp htail
                  cases hnil
                · cases htail
        have hmul := Nat.mul_le_mul_right 128 hpow
        rw [← pow_succ, Nat.sub_add_cancel hpos] at hmul
        omega
      · cases h
        exact Or.inl rfl

theorem encodeRemainingLenFrom_isSome {k : ℕ} (hk : 0 < k) (len : ℕ) :
    (encodeRemainingLenFrom k len).isSome ↔ len < 128 ^ k := by
  induction k generalizing len with
  | zero => exact absurd hk (lt_irrefl 0)
  | succ k ih =>
      rw [encodeRemainingLenFrom]
      split_ifs with hmore
      · cases k with
        | zero =>
            simp only [encodeRemainingLenFrom, Option.map_none, Option.isSome_none,
              Bool.false_eq_true, false_iff]
            omega
        | succ k =>
            rw [Option.isSome_map, ih (Nat.succ_pos k), pow_succ 128 (k + 1)]
            exact Nat.div_lt_iff_lt_mul (by decide)
      · have hone : 128 ^ 1 ≤ 128 ^ (k + 1) :=
          Nat.pow_le_pow_right (by decide) (Nat.le_add_left 1 k)
        simp only [Option.isSome_some, true_iff]
        omega

/-- No encoding of a number is shorter than the one that is written. -/
theorem packetEncodeRemainingLen_shortest {len n : ℕ} {enc buf : Bytes}
    (henc : packetEncodeRemainingLen len = some enc)
    (hdec : packetDecodeRemainingLen buf = some (len, n)) : enc.length ≤ n := by
  have hpos := decodeRemainingLenFrom_pos hdec
  have hlt := decodeRemainingLenFrom_lt (by decide) hdec
  rw [Nat.one_mul] at hlt
  rcases encodeRemainingLenFrom_le henc with hone | hle
  · omega
  · have hpow := (Nat.pow_lt_pow_iff_right (by decide : 1 < 128)).mp (hle.trans_lt hlt)
    omega

/-! ## The two functions -/

/-- What the decoder makes of a buffer: it fails, or it reads one to four bytes of it, as a
number of so many septets. -/
def DecodesWithin (buf : Bytes) : Prop :=
  packetDecodeLen buf = none ∨ ∃ v n, packetDecodeLen buf = some (v, n) ∧ 1 ≤ n ∧ n ≤ 4 ∧
    n ≤ buf.length ∧ v.toNat < 2 ^ 28 ∧ packetDecodeRemainingLen buf = some (v.toNat, n)

theorem decodesWithin (buf : Bytes) : DecodesWithin buf := by
  unfold DecodesWithin
  have heq := packetDecodeLen_eq buf
  cases hdec : packetDecodeLen buf with
  | none => exact Or.inl rfl
  | some r =>
      obtain ⟨v, n⟩ := r
      rw [hdec, Option.map_some] at heq
      have hnat : packetDecodeRemainingLen buf = some (v.toNat, n) := heq.symm
      have hle := decodeRemainingLenFrom_le hnat
      have hlt := decodeRemainingLenFrom_lt (by decide) hnat
      have hpow : 128 ^ n ≤ 128 ^ 4 := Nat.pow_le_pow_right (by decide) hle
      refine Or.inr ⟨v, n, rfl, decodeRemainingLenFrom_pos hnat, hle,
        (decodeRemainingLenFrom_iff_take.mp hnat).2, ?_, hnat⟩
      rw [Nat.one_mul] at hlt
      exact hlt.trans_le hpow

/-- A length is encoded if it fits four bytes, then it is read back from them, no other
encoding is shorter, and no buffer makes the decoder overflow. -/
theorem remaining_len_right (n : UInt32) (rest : Bytes) :
    ((packetEncodeLen n).isSome ↔ n ≤ 268435455) ∧
    (∀ enc, packetEncodeLen n = some enc →
      packetDecodeLen (enc ++ rest) = some (n, enc.length) ∧
      ∀ buf m, packetDecodeLen buf = some (n, m) → enc.length ≤ m) ∧
    ∀ buf, DecodesWithin buf ∧ RoundsFit 4 0 1 buf := by
  have henc : packetEncodeLen n = packetEncodeRemainingLen n.toNat := encodeLenLoop_eq 4 n
  refine ⟨?_, fun enc h ↦ ⟨?_, fun buf m hbuf ↦ ?_⟩,
    fun buf ↦ ⟨decodesWithin buf, roundsFit_packet buf⟩⟩
  · rw [henc, packetEncodeRemainingLen, encodeRemainingLenFrom_isSome (by decide),
      UInt32.le_iff_toNat_le]
    exact Nat.lt_succ_iff
  · rw [henc] at h
    have hround := packetDecode_packetEncode h rest
    rw [← packetDecodeLen_eq] at hround
    obtain ⟨⟨v, m⟩, hdec, heq⟩ := Option.map_eq_some_iff.mp hround
    obtain ⟨hv, rfl⟩ := Prod.mk.inj heq
    have hn : v = n := UInt32.toNat_inj.mp hv
    rw [hdec, hn]
  · rw [henc] at h
    have hnat := packetDecodeLen_eq buf
    rw [hbuf, Option.map_some] at hnat
    exact packetEncodeRemainingLen_shortest h hnat.symm

/-- Two bytes for 321. -/
theorem remaining_len_right_321 : packetEncodeLen 321 = some [0xC1, 0x02] ∧
    packetDecodeLen ([0xC1, 0x02] ++ [0x00]) = some (321, 2) :=
  ⟨by decide +kernel, ((remaining_len_right 321 [0x00]).2.1 [0xC1, 0x02] (by decide +kernel)).1⟩

end MqttBroker
