import Mathlib

/-!
# Parsers that read exactly what an encoder writes

A parser takes a value from the front of a list and leaves the rest.  It is exact
for an encoder and a set of valid values if it reads a value precisely where the
list goes on with the encoding of a valid one.  Then no two lists give the same
value, and nothing in a list is passed over.
-/

namespace Codec

variable {β α γ : Type*} {p : List β → Option (α × List β)} {enc : α → List β} {valid : α → Prop}

structure Exact (p : List β → Option (α × List β)) (enc : α → List β) (valid : α → Prop) :
    Prop where
  iff : ∀ {buf a rest}, p buf = some (a, rest) ↔ buf = enc a ++ rest ∧ valid a

theorem Exact.read (h : Exact p enc valid) {a : α} (ha : valid a) (rest : List β) :
    p (enc a ++ rest) = some (a, rest) := h.iff.mpr ⟨rfl, ha⟩

/-- A part that is there only if a flag is set, and else has a fixed value. -/
theorem Exact.onlyIf (h : Exact p enc valid) (flag : Bool) (absent : α) :
    Exact (fun buf ↦ if flag then p buf else some (absent, buf))
      (fun a ↦ if flag then enc a else [])
      (fun a ↦ if flag then valid a else a = absent) := by
  refine ⟨fun {buf a rest} ↦ ?_⟩
  cases flag with
  | false =>
      simp only [Bool.false_eq_true, if_false, Option.some.injEq, Prod.mk.injEq, List.nil_append]
      exact ⟨fun ⟨ha, hrest⟩ ↦ ⟨hrest, ha.symm⟩, fun ⟨hrest, ha⟩ ↦ ⟨ha.symm, hrest⟩⟩
  | true =>
      simp only [if_true]
      exact h.iff

/-- One part after the other, where the first one may decide how the second is read. -/
theorem Exact.andThen (h : Exact p enc valid) {q : α → List β → Option (γ × List β)}
    {enc' : α → γ → List β} {valid' : α → γ → Prop}
    (hq : ∀ a, Exact (q a) (enc' a) (valid' a)) :
    Exact (fun buf ↦ (p buf).bind fun r ↦ (q r.1 r.2).bind fun s ↦ some ((r.1, s.1), s.2))
      (fun v ↦ enc v.1 ++ enc' v.1 v.2) (fun v ↦ valid v.1 ∧ valid' v.1 v.2) := by
  refine ⟨fun {buf v rest} ↦ ?_⟩
  constructor
  · intro hread
    obtain ⟨⟨a, mid⟩, ha, hsecond⟩ := Option.bind_eq_some_iff.mp hread
    obtain ⟨⟨c, rest'⟩, hc, heq⟩ := Option.bind_eq_some_iff.mp hsecond
    obtain ⟨rfl, rfl⟩ := Prod.mk.inj (Option.some.inj heq)
    obtain ⟨rfl, hvalid⟩ := h.iff.mp ha
    obtain ⟨rfl, hvalid'⟩ := (hq a).iff.mp hc
    exact ⟨(List.append_assoc _ _ _).symm, hvalid, hvalid'⟩
  · rintro ⟨rfl, hvalid, hvalid'⟩
    simp only [List.append_assoc, h.read hvalid, Option.bind_some, (hq v.1).read hvalid']

/-- Parts up to the end of the list, with room for so many. -/
def many (p : List β → Option (α × List β)) : ℕ → List β → Option (List α)
  | _, [] => some []
  | 0, _ :: _ => none
  | k + 1, b :: bs => (p (b :: bs)).bind fun r ↦ (many p k r.2).map (r.1 :: ·)

theorem Exact.many (h : Exact p enc valid) (hne : ∀ a, valid a → enc a ≠ []) {k : ℕ}
    {buf : List β} {l : List α} :
    Codec.many p k buf = some l ↔ buf = (l.map enc).flatten ∧ (∀ a ∈ l, valid a) ∧ l.length ≤ k := by
  induction k generalizing buf l with
  | zero =>
      cases buf with
      | nil =>
          rw [Codec.many]
          constructor
          · rintro ⟨⟩
            simp
          · rintro ⟨-, -, hlen⟩
            rw [List.length_eq_zero_iff.mp (Nat.le_zero.mp hlen)]
      | cons b bs =>
          rw [Codec.many]
          refine ⟨nofun, fun ⟨hbuf, _, hlen⟩ ↦ ?_⟩
          rw [List.length_eq_zero_iff.mp (Nat.le_zero.mp hlen)] at hbuf
          cases hbuf
  | succ k ih =>
      cases buf with
      | nil =>
          rw [Codec.many]
          constructor
          · rintro ⟨⟩
            simp
          · rintro ⟨hbuf, hvalid, -⟩
            cases l with
            | nil => rfl
            | cons a l =>
                have henc := (List.append_eq_nil_iff.mp hbuf.symm).1
                exact absurd henc (hne a (hvalid a List.mem_cons_self))
      | cons b bs =>
          rw [Codec.many]
          constructor
          · intro hread
            obtain ⟨⟨a, rest⟩, ha, hmap⟩ := Option.bind_eq_some_iff.mp hread
            obtain ⟨l', hl', rfl⟩ := Option.map_eq_some_iff.mp hmap
            obtain ⟨hbuf, hvalid⟩ := h.iff.mp ha
            obtain ⟨rfl, hall, hlen⟩ := ih.mp hl'
            refine ⟨hbuf, fun c hc ↦ ?_, Nat.succ_le_succ hlen⟩
            rcases List.mem_cons.mp hc with rfl | hc
            · exact hvalid
            · exact hall c hc
          · rintro ⟨hbuf, hvalid, hlen⟩
            cases l with
            | nil => cases hbuf
            | cons a l =>
                have ha : p (b :: bs) = some (a, (l.map enc).flatten) :=
                  h.iff.mpr ⟨hbuf, hvalid a List.mem_cons_self⟩
                have hl := ih.mpr ⟨rfl, fun c hc ↦ hvalid c (List.mem_cons_of_mem _ hc),
                  Nat.le_of_succ_le_succ hlen⟩
                simp only [ha, Option.bind_some, hl, Option.map_some]

end Codec
