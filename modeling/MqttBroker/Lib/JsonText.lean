import Mathlib

/-!
# JSON texts

A reader of JSON texts, byte by byte, the bytes that it accepts, and what it makes
of strings and integers that are written as they are.
-/

namespace JsonText

abbrev Text := List UInt8

inductive Value where
  | null
  | bool (b : Bool)
  | num (x : ℚ)
  | str (s : Text)
  | arr (items : List Value)
  | obj (members : List (Text × Value))

def quote : UInt8 := 0x22
def backslash : UInt8 := 0x5C
def slash : UInt8 := 0x2F
def comma : UInt8 := 0x2C
def colon : UInt8 := 0x3A
def minus : UInt8 := 0x2D
def lbracket : UInt8 := 0x5B
def rbracket : UInt8 := 0x5D
def lbrace : UInt8 := 0x7B
def rbrace : UInt8 := 0x7D

def isWs (c : UInt8) : Bool := c = 0x20 || c = 0x09 || c = 0x0A || c = 0x0D

def skipWs (s : Text) : Text := s.dropWhile isWs

/-! ## Strings -/

def hexValue (c : UInt8) : Option ℕ :=
  if 0x30 ≤ c ∧ c ≤ 0x39 then some (c.toNat - 0x30)
  else if 0x41 ≤ c ∧ c ≤ 0x46 then some (c.toNat - 0x37)
  else if 0x61 ≤ c ∧ c ≤ 0x66 then some (c.toNat - 0x57)
  else none

/-- The four digits of `\u`. -/
def codeUnit : Text → Option (ℕ × Text)
  | a :: b :: c :: d :: s => do
      let a ← hexValue a
      let b ← hexValue b
      let c ← hexValue c
      let d ← hexValue d
      some (((a * 16 + b) * 16 + c) * 16 + d, s)
  | _ => none

/-- One code unit, or the two of a surrogate pair. -/
def codePoint (s : Text) : Option (ℕ × Text) := do
  let (high, s) ← codeUnit s
  if high < 0xD800 ∨ 0xE000 ≤ high then some (high, s)
  else
    match s with
    | c :: u :: s =>
        if c = backslash ∧ u = 0x75 then do
          let (low, s) ← codeUnit s
          if high < 0xDC00 ∧ 0xDC00 ≤ low ∧ low < 0xE000 then
            some (0x10000 + (high - 0xD800) * 0x400 + (low - 0xDC00), s)
          else none
        else none
    | _ => none

/-- The byte that a backslash and one more byte stand for. -/
def shortEscape (c : UInt8) : Option UInt8 :=
  if c = quote ∨ c = backslash ∨ c = slash then some c
  else if c = 0x62 then some 0x08
  else if c = 0x66 then some 0x0C
  else if c = 0x6E then some 0x0A
  else if c = 0x72 then some 0x0D
  else if c = 0x74 then some 0x09
  else none

/-- What an escape stands for, from behind its backslash on. -/
def escape : Text → Option (Text × Text)
  | [] => none
  | c :: s =>
      match shortEscape c with
      | some x => some ([x], s)
      | none =>
          if c = 0x75 then
            (codePoint s).map fun r ↦ (String.utf8EncodeChar (Char.ofNat r.1), r.2)
          else none

def stringFrom : ℕ → Text → Option (Text × Text)
  | 0, _ => none
  | _ + 1, [] => none
  | n + 1, c :: s =>
      if c = quote then some ([], s)
      else if c = backslash then do
        let (e, s) ← escape s
        let (d, s) ← stringFrom n s
        some (e ++ d, s)
      else if c < 0x20 then none
      else do
        let (d, s) ← stringFrom n s
        some (c :: d, s)

/-- A string from behind its first quote on. -/
def string (s : Text) : Option (Text × Text) := stringFrom s.length s

/-! ## Numbers -/

def isDigit (c : UInt8) : Bool := 0x30 ≤ c && c ≤ 0x39

def natOf (ds : Text) : ℕ := ds.foldl (fun n c ↦ 10 * n + (c.toNat - 0x30)) 0

def digits (s : Text) : Option (Text × Text) :=
  if s.takeWhile isDigit = [] then none
  else some (s.takeWhile isDigit, s.dropWhile isDigit)

def fraction : Text → Option (ℚ × Text)
  | [] => some (0, [])
  | c :: s =>
      if c = 0x2E then (digits s).map fun r ↦ ((natOf r.1 : ℚ) / 10 ^ r.1.length, r.2)
      else some (0, c :: s)

def exponent : Text → Option (ℚ × Text)
  | [] => some (1, [])
  | c :: s =>
      if c = 0x65 ∨ c = 0x45 then
        match s with
        | [] => none
        | d :: s =>
            if d = minus then (digits s).map fun r ↦ (((10 : ℚ) ^ natOf r.1)⁻¹, r.2)
            else (digits (if d = 0x2B then s else d :: s)).map fun r ↦ ((10 : ℚ) ^ natOf r.1, r.2)
      else some (1, c :: s)

def unsigned (s : Text) : Option (ℚ × Text) := do
  let (ds, s) ← digits s
  if ds.head? = some 0x30 ∧ ds.length ≠ 1 then none
  else
    let (f, s) ← fraction s
    let (e, s) ← exponent s
    some ((natOf ds + f) * e, s)

def number : Text → Option (ℚ × Text)
  | [] => none
  | c :: s => if c = minus then (unsigned s).map fun r ↦ (-r.1, r.2) else unsigned (c :: s)

/-! ## Values -/

section

variable {α : Type}

/-- Items with commas between them, up to the closing byte. -/
def items (item : Text → Option (α × Text)) (close : UInt8) :
    ℕ → Text → Option (List α × Text)
  | 0, _ => none
  | n + 1, s => do
      let (x, s) ← item (skipWs s)
      match skipWs s with
      | [] => none
      | c :: s =>
          if c = close then some ([x], s)
          else if c = comma then do
            let (xs, s) ← items item close n s
            some (x :: xs, s)
          else none

def sequence (item : Text → Option (α × Text)) (close : UInt8) (s : Text) :
    Option (List α × Text) :=
  match skipWs s with
  | [] => none
  | c :: t => if c = close then some ([], t) else items item close s.length s

end

def member (item : Text → Option (Value × Text)) : Text → Option ((Text × Value) × Text)
  | [] => none
  | c :: s =>
      if c = quote then do
        let (key, s) ← string s
        match skipWs s with
        | [] => none
        | d :: s =>
            if d = colon then do
              let (v, s) ← item (skipWs s)
              some ((key, v), s)
            else none
      else none

def keyword (word : Text) (v : Value) (s : Text) : Option (Value × Text) :=
  if word.isPrefixOf s then some (v, s.drop word.length) else none

/-- A value that is nested no deeper than the first argument. -/
def value : ℕ → Text → Option (Value × Text)
  | 0, _ => none
  | _ + 1, [] => none
  | k + 1, c :: s =>
      if c = quote then (string s).map fun r ↦ (.str r.1, r.2)
      else if c = lbracket then (sequence (value k) rbracket s).map fun r ↦ (.arr r.1, r.2)
      else if c = lbrace then
        (sequence (member (value k)) rbrace s).map fun r ↦ (.obj r.1, r.2)
      else if c = 0x6E then keyword [0x6E, 0x75, 0x6C, 0x6C] .null (c :: s)
      else if c = 0x74 then keyword [0x74, 0x72, 0x75, 0x65] (.bool true) (c :: s)
      else if c = 0x66 then keyword [0x66, 0x61, 0x6C, 0x73, 0x65] (.bool false) (c :: s)
      else (number (c :: s)).map fun r ↦ (.num r.1, r.2)

/-- The value of a whole text. -/
def document (s : Text) : Option Value := do
  let (v, t) ← value s.length (skipWs s)
  if skipWs t = [] then some v else none

/-! ## The bytes of a text -/

def Allowed (c : UInt8) : Prop := 0x20 ≤ c ∨ isWs c = true

instance : DecidablePred Allowed := fun _ ↦ inferInstanceAs (Decidable (_ ∨ _))

/-- From `s` to its rest `t` no byte was passed that a text cannot have. -/
def Reads (s t : Text) : Prop := ∀ c ∈ s, ¬ Allowed c → c ∈ t

theorem Reads.refl (s : Text) : Reads s s := fun _ hc _ ↦ hc

theorem Reads.trans {s t u : Text} (hst : Reads s t) (htu : Reads t u) : Reads s u :=
  fun c hc hno ↦ htu c (hst c hc hno) hno

theorem Reads.cons {s t : Text} {c : UInt8} (hc : Allowed c) (h : Reads s t) :
    Reads (c :: s) t := by
  intro x hx hno
  rcases List.mem_cons.mp hx with rfl | hx
  · exact absurd hc hno
  · exact h x hx hno

theorem Reads.append {p t : Text} (hp : ∀ c ∈ p, Allowed c) : Reads (p ++ t) t := by
  intro c hc hno
  rcases List.mem_append.mp hc with hc | hc
  · exact absurd (hp c hc) hno
  · exact hc

theorem reads_dropWhile {p : UInt8 → Bool} (hp : ∀ c, p c = true → Allowed c) (s : Text) :
    Reads s (s.dropWhile p) := by
  have h : Reads (s.takeWhile p ++ s.dropWhile p) (s.dropWhile p) :=
    Reads.append fun c hc ↦ hp c (List.mem_takeWhile_imp hc)
  rwa [List.takeWhile_append_dropWhile] at h

theorem reads_skipWs (s : Text) : Reads s (skipWs s) := reads_dropWhile (fun _ ↦ Or.inr) s

theorem allowed_of_isDigit : ∀ c, isDigit c = true → Allowed c := by decide +kernel

/-! ### Escapes -/

theorem hexValue_spec : ∀ c, (hexValue c).isSome = true → c ≠ quote ∧ Allowed c := by
  decide +kernel

theorem codeUnit_spec {s t : Text} {n : ℕ} (h : codeUnit s = some (n, t)) :
    ∃ p, s = p ++ t ∧ p.length = 4 ∧ ∀ c ∈ p, c ≠ quote ∧ Allowed c := by
  unfold codeUnit at h
  split at h
  · rename_i a b c d s
    obtain ⟨a', ha, h⟩ := Option.bind_eq_some_iff.mp h
    obtain ⟨b', hb, h⟩ := Option.bind_eq_some_iff.mp h
    obtain ⟨c', hc, h⟩ := Option.bind_eq_some_iff.mp h
    obtain ⟨d', hd, h⟩ := Option.bind_eq_some_iff.mp h
    cases h
    have hhex : ∀ {x y}, hexValue x = some y → x ≠ quote ∧ Allowed x := fun hx ↦
      hexValue_spec _ (Option.isSome_of_eq_some hx)
    refine ⟨[a, b, c, d], rfl, rfl, ?_⟩
    simpa using ⟨hhex ha, hhex hb, hhex hc, hhex hd⟩
  · cases h

theorem codePoint_spec {s t : Text} {n : ℕ} (h : codePoint s = some (n, t)) :
    ∃ p, s = p ++ t ∧ 4 ≤ p.length ∧ ∀ c ∈ p, c ≠ quote ∧ Allowed c := by
  obtain ⟨⟨high, s'⟩, hhigh, hrest⟩ := Option.bind_eq_some_iff.mp h
  obtain ⟨p, rfl, hlen, hp⟩ := codeUnit_spec hhigh
  dsimp only at hrest
  split_ifs at hrest with hone
  · cases hrest
    exact ⟨p, rfl, hlen.ge, hp⟩
  · split at hrest
    · rename_i c u s''
      split_ifs at hrest with hu
      obtain ⟨rfl, rfl⟩ := hu
      obtain ⟨⟨low, t'⟩, hlow, hpair⟩ := Option.bind_eq_some_iff.mp hrest
      obtain ⟨q, rfl, -, hq⟩ := codeUnit_spec hlow
      dsimp only at hpair
      split_ifs at hpair
      obtain ⟨-, rfl⟩ := Prod.mk.inj (Option.some.inj hpair)
      refine ⟨p ++ backslash :: 0x75 :: q, by simp, by simp [hlen], fun c hc ↦ ?_⟩
      have hmark : ∀ c ∈ [backslash, 0x75], c ≠ quote ∧ Allowed c := by decide +kernel
      rcases List.mem_append.mp hc with hc | hc
      · exact hp c hc
      · rcases List.mem_append.mp (show c ∈ [backslash, 0x75] ++ q from hc) with hc | hc
        · exact hmark c hc
        · exact hq c hc
    · cases hrest

theorem length_utf8EncodeChar_le (c : Char) : (String.utf8EncodeChar c).length ≤ 4 := by
  rw [String.length_utf8EncodeChar]
  exact Char.utf8Size_le_four c

theorem shortEscape_spec : ∀ c, (shortEscape c).isSome = true → Allowed c := by decide +kernel

/-- An escape is no shorter than what it stands for, and has a quote only where it stands for
one. -/
theorem escape_spec {s e t : Text} (h : escape s = some (e, t)) :
    ∃ p, s = p ++ t ∧ e.length ≤ p.length ∧ (quote ∈ p → p = [quote]) ∧
      ∀ c ∈ p, Allowed c := by
  cases s with
  | nil => cases h
  | cons c s =>
      rw [escape] at h
      split at h
      · rename_i x hx
        cases h
        refine ⟨[c], rfl, le_refl _, fun hq ↦ by rw [List.mem_singleton.mp hq], ?_⟩
        have hallowed := shortEscape_spec c (Option.isSome_of_eq_some hx)
        simpa using hallowed
      · split_ifs at h with hu
        subst hu
        obtain ⟨⟨n, t'⟩, hn, h⟩ := Option.map_eq_some_iff.mp h
        cases h
        obtain ⟨p, rfl, hlen, hp⟩ := codePoint_spec hn
        have hmark : ∀ c ∈ 0x75 :: p, c ≠ quote ∧ Allowed c := by
          intro c hc
          rcases List.mem_cons.mp hc with rfl | hc
          · decide +kernel
          · exact hp c hc
        refine ⟨0x75 :: p, rfl, ?_, fun hq ↦ absurd rfl (hmark _ hq).1, fun c hc ↦ (hmark c hc).2⟩
        exact (length_utf8EncodeChar_le _).trans (hlen.trans (Nat.le_succ _))

/-! ### What each reader passes -/

theorem stringFrom_reads {n : ℕ} {s d t : Text} (h : stringFrom n s = some (d, t)) :
    Reads s t := by
  induction n generalizing s d with
  | zero => cases h
  | succ n ih =>
      cases s with
      | nil => cases h
      | cons c s =>
          rw [stringFrom] at h
          split_ifs at h with hq hb hlow
          · cases h
            exact (Reads.refl _).cons (by rw [hq]; decide)
          · obtain ⟨⟨e, s'⟩, he, h⟩ := Option.bind_eq_some_iff.mp h
            obtain ⟨⟨d', t'⟩, hd, h⟩ := Option.bind_eq_some_iff.mp h
            cases h
            obtain ⟨p, rfl, -, -, hp⟩ := escape_spec he
            exact ((Reads.append hp).trans (ih hd)).cons (by rw [hb]; decide)
          · obtain ⟨⟨d', t'⟩, hd, h⟩ := Option.bind_eq_some_iff.mp h
            cases h
            exact (ih hd).cons (Or.inl (UInt8.not_lt.mp hlow))

theorem digits_reads {s ds t : Text} (h : digits s = some (ds, t)) : Reads s t := by
  unfold digits at h
  split_ifs at h
  cases h
  exact reads_dropWhile allowed_of_isDigit s

theorem fraction_reads {s t : Text} {x : ℚ} (h : fraction s = some (x, t)) : Reads s t := by
  cases s with
  | nil => cases h; exact Reads.refl _
  | cons c s =>
      rw [fraction] at h
      split_ifs at h with hc
      · obtain ⟨⟨ds, t'⟩, hds, h⟩ := Option.map_eq_some_iff.mp h
        cases h
        exact (digits_reads hds).cons (by rw [hc]; decide)
      · cases h
        exact Reads.refl _

theorem exponent_reads {s t : Text} {x : ℚ} (h : exponent s = some (x, t)) : Reads s t := by
  cases s with
  | nil => cases h; exact Reads.refl _
  | cons c s =>
      rw [exponent.eq_def] at h
      dsimp only at h
      split_ifs at h with hc
      · have hallowed : Allowed c := by
          rcases hc with rfl | rfl <;> decide
        refine Reads.cons hallowed ?_
        cases s with
        | nil => cases h
        | cons d s =>
            dsimp only at h
            split_ifs at h with hminus hplus
            · obtain ⟨⟨ds, t'⟩, hds, h⟩ := Option.map_eq_some_iff.mp h
              cases h
              exact (digits_reads hds).cons (by rw [hminus]; decide)
            · obtain ⟨⟨ds, t'⟩, hds, h⟩ := Option.map_eq_some_iff.mp h
              cases h
              exact (digits_reads hds).cons (by rw [hplus]; decide)
            · obtain ⟨⟨ds, t'⟩, hds, h⟩ := Option.map_eq_some_iff.mp h
              cases h
              exact digits_reads hds
      · cases h
        exact Reads.refl _

theorem unsigned_reads {s t : Text} {x : ℚ} (h : unsigned s = some (x, t)) : Reads s t := by
  obtain ⟨⟨ds, s₁⟩, hds, hrest⟩ := Option.bind_eq_some_iff.mp h
  dsimp only at hrest
  split_ifs at hrest
  obtain ⟨⟨f, s₂⟩, hf, hrest⟩ := Option.bind_eq_some_iff.mp hrest
  obtain ⟨⟨e, s₃⟩, he, hrest⟩ := Option.bind_eq_some_iff.mp hrest
  cases hrest
  exact (digits_reads hds).trans ((fraction_reads hf).trans (exponent_reads he))

theorem number_reads {s t : Text} {x : ℚ} (h : number s = some (x, t)) : Reads s t := by
  cases s with
  | nil => cases h
  | cons c s =>
      rw [number] at h
      split_ifs at h with hc
      · obtain ⟨⟨y, t'⟩, hy, h⟩ := Option.map_eq_some_iff.mp h
        cases h
        exact (unsigned_reads hy).cons (by rw [hc]; decide)
      · exact unsigned_reads h

theorem keyword_reads {word s t : Text} {v x : Value} (hword : ∀ c ∈ word, Allowed c)
    (h : keyword word v s = some (x, t)) : Reads s t := by
  unfold keyword at h
  split_ifs at h with hp
  cases h
  obtain ⟨r, rfl⟩ := List.isPrefixOf_iff_prefix.mp hp
  rw [List.drop_left]
  exact Reads.append hword

section

variable {α : Type} {item : Text → Option (α × Text)} {close : UInt8}

theorem items_reads (hitem : ∀ {s x t}, item s = some (x, t) → Reads s t) (hclose : Allowed close)
    {n : ℕ} {s t : Text} {xs : List α} (h : items item close n s = some (xs, t)) : Reads s t := by
  induction n generalizing s xs with
  | zero => cases h
  | succ n ih =>
      obtain ⟨⟨x, s₁⟩, hx, h⟩ := Option.bind_eq_some_iff.mp h
      refine (reads_skipWs s).trans ((hitem hx).trans ((reads_skipWs s₁).trans ?_))
      dsimp only at h
      split at h
      · cases h
      · rename_i c s₂ hs₂
        rw [hs₂]
        split_ifs at h with hc hcomma
        · cases h
          exact (Reads.refl _).cons (hc ▸ hclose)
        · obtain ⟨⟨ys, t'⟩, hys, h⟩ := Option.bind_eq_some_iff.mp h
          cases h
          exact (ih hys).cons (by rw [hcomma]; decide)

theorem sequence_reads (hitem : ∀ {s x t}, item s = some (x, t) → Reads s t)
    (hclose : Allowed close) {s t : Text} {xs : List α}
    (h : sequence item close s = some (xs, t)) : Reads s t := by
  unfold sequence at h
  split at h
  · cases h
  · rename_i c s₁ hs₁
    split_ifs at h with hc
    · cases h
      refine (reads_skipWs s).trans ?_
      rw [hs₁]
      exact (Reads.refl _).cons (hc ▸ hclose)
    · exact items_reads hitem hclose h

end

theorem member_reads {item : Text → Option (Value × Text)}
    (hitem : ∀ {s x t}, item s = some (x, t) → Reads s t) {s t : Text} {m : Text × Value}
    (h : member item s = some (m, t)) : Reads s t := by
  cases s with
  | nil => cases h
  | cons c s =>
      rw [member] at h
      split_ifs at h with hc
      obtain ⟨⟨key, s₁⟩, hkey, h⟩ := Option.bind_eq_some_iff.mp h
      refine Reads.cons (by rw [hc]; decide) ((stringFrom_reads hkey).trans
        ((reads_skipWs s₁).trans ?_))
      dsimp only at h
      split at h
      · cases h
      · rename_i d s₂ hs₂
        rw [hs₂]
        split_ifs at h with hd
        obtain ⟨⟨v, t'⟩, hv, h⟩ := Option.bind_eq_some_iff.mp h
        cases h
        exact Reads.cons (by rw [hd]; decide) ((reads_skipWs s₂).trans (hitem hv))

theorem value_reads {k : ℕ} {s t : Text} {v : Value} (h : value k s = some (v, t)) :
    Reads s t := by
  induction k generalizing s v t with
  | zero => cases h
  | succ k ih =>
      cases s with
      | nil => cases h
      | cons c s =>
          rw [value] at h
          split_ifs at h with hq hbracket hbrace hn ht hf
          · obtain ⟨⟨d, t'⟩, hd, h⟩ := Option.map_eq_some_iff.mp h
            cases h
            exact (stringFrom_reads hd).cons (by rw [hq]; decide)
          · obtain ⟨⟨vs, t'⟩, hvs, h⟩ := Option.map_eq_some_iff.mp h
            cases h
            exact (sequence_reads ih (by decide) hvs).cons (by rw [hbracket]; decide)
          · obtain ⟨⟨ms, t'⟩, hms, h⟩ := Option.map_eq_some_iff.mp h
            cases h
            exact (sequence_reads (member_reads ih) (by decide) hms).cons
              (by rw [hbrace]; decide)
          · exact keyword_reads (by decide +kernel) h
          · exact keyword_reads (by decide +kernel) h
          · exact keyword_reads (by decide +kernel) h
          · obtain ⟨⟨x, t'⟩, hx, h⟩ := Option.map_eq_some_iff.mp h
            cases h
            exact number_reads hx

/-- A text has no other control bytes than the white space. -/
theorem document_allowed {s : Text} {v : Value} (h : document s = some v) :
    ∀ c ∈ s, Allowed c := by
  obtain ⟨⟨w, t⟩, hw, hrest⟩ := Option.bind_eq_some_iff.mp h
  dsimp only at hrest
  split_ifs at hrest with hend
  intro c hc
  by_contra hno
  have hmem := (reads_skipWs s).trans ((value_reads hw).trans (reads_skipWs t)) c hc hno
  rw [hend] at hmem
  cases hmem

/-! ## Strings that are written as they are -/

/-- The bytes that stand for themselves in a string. -/
def Plain (c : UInt8) : Prop := 0x20 ≤ c ∧ c ≠ quote ∧ c ≠ backslash

instance : DecidablePred Plain := fun _ ↦ inferInstanceAs (Decidable (_ ∧ _))

theorem stringFrom_cons_plain {c : UInt8} (hc : Plain c) (n : ℕ) (s : Text) :
    stringFrom (n + 1) (c :: s) = (stringFrom n s).bind fun r ↦ some (c :: r.1, r.2) := by
  rw [stringFrom, if_neg hc.2.1, if_neg hc.2.2, if_neg (UInt8.not_lt.mpr hc.1)]
  rfl

theorem stringFrom_plain {r : Text} (h : ∀ c ∈ r, Plain c) (t : Text) {n : ℕ}
    (hn : r.length < n) : stringFrom n (r ++ quote :: t) = some (r, t) := by
  induction r generalizing n with
  | nil =>
      obtain ⟨n, rfl⟩ := Nat.exists_eq_succ_of_ne_zero (Nat.ne_zero_of_lt hn)
      rfl
  | cons c r ih =>
      obtain ⟨n, rfl⟩ := Nat.exists_eq_succ_of_ne_zero (Nat.ne_zero_of_lt hn)
      rw [List.cons_append, stringFrom_cons_plain (h c List.mem_cons_self),
        ih (fun x hx ↦ h x (List.mem_cons_of_mem c hx)) (Nat.lt_of_succ_lt_succ hn)]
      rfl

theorem string_plain {r : Text} (h : ∀ c ∈ r, Plain c) (t : Text) :
    string (r ++ quote :: t) = some (r, t) :=
  stringFrom_plain h t (by simp)

theorem stringFrom_comma {n : ℕ} {d y t : Text}
    (h : stringFrom n (comma :: quote :: y) = some (d, t)) : d = [comma] ∧ t = y := by
  match n with
  | 0 => cases h
  | 1 => cases h
  | n + 2 =>
      rw [stringFrom_cons_plain (by decide +kernel)] at h
      cases h
      exact ⟨rfl, rfl⟩

/-- A string that is written as it is, with a comma and a quote behind it: it is read as it is, or
as a shorter one, or its last backslash has taken the quote. -/
theorem stringFrom_cases {n : ℕ} {r d y t : Text}
    (h : stringFrom n (r ++ quote :: comma :: quote :: y) = some (d, t)) :
    (d = r ∧ (∀ c ∈ r, Plain c) ∧ t = comma :: quote :: y) ∨ d.length < r.length ∨
      (d.getLast? = some comma ∧ r.getLast? = some backslash) := by
  induction n generalizing r d with
  | zero => cases h
  | succ n ih =>
      cases r with
      | nil =>
          rw [List.nil_append, stringFrom, if_pos rfl] at h
          cases h
          exact Or.inl ⟨rfl, by simp, rfl⟩
      | cons c r =>
          rw [List.cons_append, stringFrom] at h
          split_ifs at h with hq hb hlow
          · cases h
            exact Or.inr (Or.inl (Nat.succ_pos _))
          · obtain ⟨⟨e, s⟩, he, h⟩ := Option.bind_eq_some_iff.mp h
            obtain ⟨⟨d', t'⟩, hd, h⟩ := Option.bind_eq_some_iff.mp h
            cases h
            obtain ⟨p, hs, hlen, hquote, -⟩ := escape_spec he
            have hinside : ∀ r', r = p ++ r' → s = r' ++ quote :: comma :: quote :: y →
                (e ++ d').length < (c :: r).length ∨
                  ((e ++ d').getLast? = some comma ∧ (c :: r).getLast? = some backslash) := by
              rintro r' rfl rfl
              rcases ih hd with ⟨rfl, -, -⟩ | hshort | ⟨hlast, hback⟩
              · left
                simp only [List.length_append, List.length_cons]
                omega
              · left
                simp only [List.length_append, List.length_cons]
                omega
              · right
                rw [List.getLast?_append, hlast, ← List.cons_append, List.getLast?_append, hback]
                exact ⟨rfl, rfl⟩
            rcases List.append_eq_append_iff.mp hs with ⟨a, hp, ha⟩ | ⟨r', hr, hs'⟩
            · cases a with
              | nil => exact Or.inr (hinside [] (by simpa using hp.symm) ha.symm)
              | cons x a =>
                  -- the escape has taken the quote
                  obtain ⟨rfl, htail⟩ := List.cons_eq_cons.mp ha
                  obtain ⟨rfl, rfl⟩ : r = [] ∧ a = [] := by
                    have hone := hp.symm.trans (hquote (by rw [hp]; simp))
                    cases r with
                    | nil => exact ⟨rfl, (List.cons_eq_cons.mp hone).2⟩
                    | cons z r => simp at hone
                  obtain rfl : comma :: quote :: y = s := htail
                  obtain ⟨rfl, -⟩ := stringFrom_comma hd
                  exact Or.inr (Or.inr ⟨List.getLast?_concat, by rw [hb]; rfl⟩)
            · exact Or.inr (hinside r' hr hs')
          · obtain ⟨⟨d', t'⟩, hd, h⟩ := Option.bind_eq_some_iff.mp h
            cases h
            rcases ih hd with ⟨rfl, hplain, rfl⟩ | hshort | ⟨hlast, hback⟩
            · refine Or.inl ⟨rfl, fun x hx ↦ ?_, rfl⟩
              rcases List.mem_cons.mp hx with rfl | hx
              · exact ⟨UInt8.not_lt.mp hlow, hq, hb⟩
              · exact hplain x hx
            · exact Or.inr (Or.inl (Nat.succ_lt_succ hshort))
            · rw [List.getLast?_cons, List.getLast?_cons, hlast, hback]
              exact Or.inr (Or.inr ⟨rfl, rfl⟩)

/-- With a comma and a quote behind it, a string is read as it is written if and only if its bytes
stand for themselves. -/
theorem string_eq_iff {r y t : Text} :
    string (r ++ quote :: comma :: quote :: y) = some (r, t) ↔
      (∀ c ∈ r, Plain c) ∧ t = comma :: quote :: y := by
  constructor
  · intro h
    rcases stringFrom_cases h with ⟨-, hplain, ht⟩ | hshort | ⟨hlast, hback⟩
    · exact ⟨hplain, ht⟩
    · exact absurd hshort (lt_irrefl _)
    · rw [hlast] at hback
      exact absurd hback (by decide)
  · rintro ⟨hplain, rfl⟩
    exact string_plain hplain _

/-! ## Integers -/

def digitByte (d : ℕ) : UInt8 := UInt8.ofNat (0x30 + d)

def natText (n : ℕ) : Text :=
  if n = 0 then [0x30] else (Nat.digits 10 n).reverse.map digitByte

/-- An integer in decimal. -/
def intText (z : ℤ) : Text :=
  if z < 0 then minus :: natText z.natAbs else natText z.natAbs

theorem digitByte_spec : ∀ d < 10, isDigit (digitByte d) = true ∧
    (digitByte d).toNat - 0x30 = d ∧ (digitByte d = 0x30 → d = 0) := by decide +kernel

theorem natOf_concat (ds : Text) (c : UInt8) :
    natOf (ds ++ [c]) = 10 * natOf ds + (c.toNat - 0x30) := by
  simp [natOf]

theorem natOf_digits {l : List ℕ} (h : ∀ d ∈ l, d < 10) :
    natOf (l.reverse.map digitByte) = Nat.ofDigits 10 l := by
  induction l with
  | nil => rfl
  | cons d l ih =>
      rw [List.reverse_cons, List.map_append, List.map_singleton, natOf_concat,
        ih fun x hx ↦ h x (List.mem_cons_of_mem d hx), Nat.ofDigits_cons,
        (digitByte_spec d (h d List.mem_cons_self)).2.1]
      exact Nat.add_comm _ _

theorem digits_ten_lt (n : ℕ) : ∀ d ∈ Nat.digits 10 n, d < 10 := fun _ hd ↦
  Nat.digits_lt_base (by decide) hd

theorem natOf_natText (n : ℕ) : natOf (natText n) = n := by
  unfold natText
  split_ifs with hn
  · rw [hn]
    rfl
  · rw [natOf_digits (digits_ten_lt n), Nat.ofDigits_digits]

theorem natText_isDigit (n : ℕ) : ∀ c ∈ natText n, isDigit c = true := by
  intro c hc
  unfold natText at hc
  split_ifs at hc
  · rw [List.mem_singleton.mp hc]
    rfl
  · obtain ⟨d, hd, rfl⟩ := List.mem_map.mp hc
    exact (digitByte_spec d (digits_ten_lt n d (List.mem_reverse.mp hd))).1

theorem natText_ne_nil (n : ℕ) : natText n ≠ [] := by
  unfold natText
  split_ifs with hn
  · exact List.cons_ne_nil _ _
  · intro h
    have hdigits := List.reverse_eq_nil_iff.mp (List.map_eq_nil_iff.mp h)
    exact hn (Nat.digits_eq_nil_iff_eq_zero.mp hdigits)

/-- No integer but 0 begins with a 0. -/
theorem natText_head {n : ℕ} (h : (natText n).head? = some 0x30) : (natText n).length = 1 := by
  by_cases hn : n = 0
  · rw [natText, if_pos hn]
    rfl
  · rw [natText, if_neg hn, List.head?_map, List.head?_reverse] at h
    obtain ⟨d, hd, hbyte⟩ := Option.map_eq_some_iff.mp h
    have hlast : d = (Nat.digits 10 n).getLast (Nat.digits_ne_nil_iff_ne_zero.mpr hn) :=
      (List.getLast_of_getLast?_eq_some hd).symm
    have hzero := (digitByte_spec d (digits_ten_lt n d (List.mem_of_getLast? hd))).2.2 hbyte
    exact absurd (hlast.symm.trans hzero) (Nat.getLast_digit_ne_zero 10 hn)

/-- What may stand behind a number in a text. -/
def Stops (t : Text) : Prop := ∃ c y, t = c :: y ∧ (c = comma ∨ c = rbrace ∨ c = rbracket)

theorem digits_append {ds t : Text} (hds : ∀ c ∈ ds, isDigit c = true) (hne : ds ≠ [])
    (ht : Stops t) : digits (ds ++ t) = some (ds, t) := by
  obtain ⟨c, y, rfl, hc⟩ := ht
  have hstop : isDigit c = false := by rcases hc with rfl | rfl | rfl <;> rfl
  have htake : (ds ++ c :: y).takeWhile isDigit = ds := by
    rw [List.takeWhile_append_of_pos hds, List.takeWhile_cons_of_neg (by simp [hstop]),
      List.append_nil]
  have hdrop : (ds ++ c :: y).dropWhile isDigit = c :: y := by
    rw [List.dropWhile_append_of_pos hds, List.dropWhile_cons_of_neg (by simp [hstop])]
  rw [digits, htake, if_neg hne, hdrop]

theorem unsigned_natText (n : ℕ) {t : Text} (ht : Stops t) :
    unsigned (natText n ++ t) = some ((n : ℚ), t) := by
  have hdigits := digits_append (natText_isDigit n) (natText_ne_nil n) ht
  have hzero : ¬ ((natText n).head? = some 0x30 ∧ (natText n).length ≠ 1) := fun h ↦
    h.2 (natText_head h.1)
  obtain ⟨c, y, rfl, hc⟩ := ht
  have hfraction : fraction (c :: y) = some (0, c :: y) := by
    rw [fraction, if_neg]
    rcases hc with rfl | rfl | rfl <;> decide
  have hexponent : exponent (c :: y) = some (1, c :: y) := by
    rw [exponent.eq_def]
    dsimp only
    rw [if_neg]
    rcases hc with rfl | rfl | rfl <;> decide
  rw [unsigned, hdigits]
  simp only [Option.bind_eq_bind, Option.bind_some, if_neg hzero, hfraction, hexponent,
    natOf_natText, add_zero, mul_one]

theorem number_intText (z : ℤ) {t : Text} (ht : Stops t) :
    number (intText z ++ t) = some ((z : ℚ), t) := by
  unfold intText
  split_ifs with hz
  · rw [List.cons_append, number, if_pos rfl, unsigned_natText _ ht, Option.map_some]
    have habs : ((z.natAbs : ℤ) : ℚ) = ((-z : ℤ) : ℚ) := by
      rw [Int.ofNat_natAbs_of_nonpos hz.le]
    rw [Int.cast_natCast, Int.cast_neg] at habs
    rw [habs, neg_neg]
  · obtain ⟨c, s, hs⟩ := List.exists_cons_of_ne_nil (natText_ne_nil z.natAbs)
    have hdigit : isDigit c = true := natText_isDigit z.natAbs c (by rw [hs]; simp)
    have hminus : c ≠ minus := by
      rintro rfl
      cases hdigit
    have habs : ((z.natAbs : ℤ) : ℚ) = (z : ℚ) := by
      rw [Int.natAbs_of_nonneg (not_lt.mp hz)]
    rw [hs, List.cons_append, number, if_neg hminus, ← List.cons_append, ← hs,
      unsigned_natText _ ht, ← Int.cast_natCast, habs]

end JsonText
