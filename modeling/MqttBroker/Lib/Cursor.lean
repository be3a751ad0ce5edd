import MqttBroker.Lib.Codec

/-!
# Reading a buffer at a moving position

Code that parses a buffer keeps a position and reads at offsets from it.  Here such
a read fails when it is not inside the buffer, which is another thing than refusing
the input.  Code of this kind tracks a parser on lists if it refuses what the parser
refuses, and else stands where the parser's rest begins; then it never reads
outside the buffer.
-/

namespace Cursor

universe u v

variable {β α γ : Type u} {ε : Type v}

inductive Failure (ε : Type v) where
  | refused (e : ε)
  | outOfBounds
  deriving DecidableEq

def refuse (e : ε) : Except (Failure ε) α := .error (.refused e)

def byteAt (buf : List β) (pos : ℕ) : Except (Failure ε) β :=
  match buf[pos]? with
  | some b => .ok b
  | none => .error .outOfBounds

def sliceAt (buf : List β) (pos n : ℕ) : Except (Failure ε) (List β) :=
  if pos + n ≤ buf.length then .ok ((buf.drop pos).take n) else .error .outOfBounds

/-- A parser's result, as code with the error `e` reports it. -/
def ofOption (e : ε) : Option α → Except (Failure ε) α
  | some a => .ok a
  | none => refuse e

theorem ofOption_ne_outOfBounds (e : ε) (p : Option α) : ofOption e p ≠ .error .outOfBounds := by
  cases p <;> simp [ofOption, refuse]

theorem ofOption_eq_ok {e : ε} {p : Option α} {a : α} : ofOption e p = .ok a ↔ p = some a := by
  cases p <;> simp [ofOption, refuse]

theorem byteAt_of_drop {buf rest : List β} {pos : ℕ} {b : β} (h : buf.drop pos = b :: rest) :
    (byteAt buf pos : Except (Failure ε) β) = .ok b := by
  have hget : buf[pos]? = some b := by
    rw [← List.head?_drop, h]
    rfl
  rw [byteAt, hget]

theorem drop_succ_of_drop {buf rest : List β} {pos : ℕ} {b : β} (h : buf.drop pos = b :: rest) :
    buf.drop (pos + 1) = rest := by
  rw [← List.tail_drop, h, List.tail_cons]

theorem sliceAt_eq {buf : List β} {pos n : ℕ} (h : pos + n ≤ buf.length) :
    (sliceAt buf pos n : Except (Failure ε) (List β)) = .ok ((buf.drop pos).take n) := if_pos h

/-- The code ends as the parser does, at the position where the rest begins. -/
def Tracks (buf : List β) (e : ε) (r : Except (Failure ε) (α × ℕ)) :
    Option (α × List β) → Prop
  | none => r = refuse e
  | some (a, rest) => ∃ pos ≤ buf.length, r = .ok (a, pos) ∧ buf.drop pos = rest

variable {buf : List β} {e : ε} {r : Except (Failure ε) (α × ℕ)} {p : Option (α × List β)}

theorem Tracks.ok {pos : ℕ} (hpos : pos ≤ buf.length) (a : α) :
    Tracks buf e (.ok (a, pos)) (some (a, buf.drop pos)) := ⟨pos, hpos, rfl, rfl⟩

theorem Tracks.bind (h : Tracks buf e r p) {r' : α × ℕ → Except (Failure ε) (γ × ℕ)}
    {p' : α × List β → Option (γ × List β)}
    (hnext : ∀ a pos, pos ≤ buf.length → Tracks buf e (r' (a, pos)) (p' (a, buf.drop pos))) :
    Tracks buf e (r >>= r') (p >>= p') := by
  cases p with
  | none =>
      obtain rfl : r = refuse e := h
      rfl
  | some v =>
      obtain ⟨pos, hpos, rfl, hrest⟩ := h
      have htail := hnext v.1 pos hpos
      rw [hrest] at htail
      exact htail

/-- The same where only a value is left in the end. -/
theorem Tracks.finish (h : Tracks buf e r p) {r' : α × ℕ → Except (Failure ε) γ}
    {p' : α × List β → Option γ}
    (hnext : ∀ a pos, pos ≤ buf.length → r' (a, pos) = ofOption e (p' (a, buf.drop pos))) :
    (r >>= r') = ofOption e (p >>= p') := by
  cases p with
  | none =>
      obtain rfl : r = refuse e := h
      rfl
  | some v =>
      obtain ⟨pos, hpos, rfl, hrest⟩ := h
      have htail := hnext v.1 pos hpos
      rw [hrest] at htail
      exact htail

/-- Both refuse on the same condition. -/
theorem Tracks.guard {c : Prop} [Decidable c] (h : ¬ c → Tracks buf e r p) :
    Tracks buf e (if c then refuse e else r) (if c then none else p) := by
  by_cases hc : c
  · rw [if_pos hc, if_pos hc]
    rfl
  · rw [if_neg hc, if_neg hc]
    exact h hc

/-- A loop to the end of the buffer, with room for so many items. -/
def manyAt (e : ε) (r : ℕ → Except (Failure ε) (α × ℕ)) (len : ℕ) :
    ℕ → ℕ → Except (Failure ε) (List α)
  | k, pos =>
      if pos < len then
        match k with
        | 0 => refuse e
        | k + 1 => do
            let (a, pos) ← r pos
            let rest ← manyAt e r len k pos
            .ok (a :: rest)
      else .ok []

theorem manyAt_eq {r : ℕ → Except (Failure ε) (α × ℕ)} {p : List β → Option (α × List β)}
    (h : ∀ pos ≤ buf.length, Tracks buf e (r pos) (p (buf.drop pos))) (k : ℕ) {pos : ℕ}
    (hpos : pos ≤ buf.length) :
    manyAt e r buf.length k pos = ofOption e (Codec.many p k (buf.drop pos)) := by
  induction k generalizing pos with
  | zero =>
      rw [manyAt]
      split_ifs with hmore
      · rw [List.drop_eq_getElem_cons hmore]
        rfl
      · rw [List.drop_eq_nil_iff.mpr (not_lt.mp hmore)]
        rfl
  | succ k ih =>
      rw [manyAt]
      split_ifs with hmore
      · have hcons := List.drop_eq_getElem_cons hmore
        have hmany : Codec.many p (k + 1) (buf.drop pos) =
            (p (buf.drop pos)).bind fun r ↦ (Codec.many p k r.2).map (r.1 :: ·) := by
          rw [hcons]
          rfl
        rw [hmany]
        refine (h pos hpos).finish fun a pos hpos ↦ ?_
        dsimp only
        rw [ih hpos]
        cases Codec.many p k (buf.drop pos) <;> rfl
      · rw [List.drop_eq_nil_iff.mpr (not_lt.mp hmore)]
        rfl

end Cursor
