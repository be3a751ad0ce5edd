import Mathlib

/-!
# Exchange sort

The sort of two nested loops: each position is compared with every later one,
and the two entries change places when they stand the wrong way round.  The test
for that is a parameter.  Whatever it says about entries with equal keys, the
result is in the order of the keys; so lists with the same keys give the same
keys in the same order, and which entries come first is a matter of counting.
-/

namespace ExchangeSort

variable {α β κ : Type*}

section Loops

variable (swap : α → α → Bool)

/-- The inner loop: what ends up at the position of `cur`, and the rest. -/
def sweep (cur : α) : List α → α × List α
  | [] => (cur, [])
  | p :: ps =>
      if swap cur p then ((sweep p ps).1, cur :: (sweep p ps).2)
      else ((sweep cur ps).1, p :: (sweep cur ps).2)

/-- Both loops, for so many positions. -/
def sort : ℕ → List α → List α
  | n + 1, p :: ps => (sweep swap p ps).1 :: sort n (sweep swap p ps).2
  | _, ps => ps

theorem sweep_perm (cur : α) (ps : List α) :
    ((sweep swap cur ps).1 :: (sweep swap cur ps).2).Perm (cur :: ps) := by
  induction ps generalizing cur with
  | nil => exact List.Perm.refl _
  | cons p ps ih =>
      rw [sweep]
      split_ifs
      · exact (List.Perm.swap _ _ _).trans ((ih p).cons cur)
      · exact ((List.Perm.swap _ _ _).trans ((ih cur).cons p)).trans (List.Perm.swap _ _ _)

theorem sort_perm (n : ℕ) (ps : List α) : (sort swap n ps).Perm ps := by
  induction n generalizing ps with
  | zero => exact List.Perm.refl _
  | succ n ih =>
      cases ps with
      | nil => exact List.Perm.refl _
      | cons p ps => exact ((ih _).cons _).trans (sweep_perm swap p ps)

variable [LinearOrder κ] (key : α → κ)

/-- The test changes places only of entries in the wrong order, and of all of them. -/
structure Follows : Prop where
  of_swap : ∀ {a b}, swap a b = true → key b ≤ key a
  of_keep : ∀ {a b}, ¬ swap a b = true → key a ≤ key b

variable {swap key}

theorem Follows.sweep_le (h : Follows swap key) (cur : α) (ps : List α) :
    key (sweep swap cur ps).1 ≤ key cur ∧
      ∀ b ∈ (sweep swap cur ps).2, key (sweep swap cur ps).1 ≤ key b := by
  induction ps generalizing cur with
  | nil => exact ⟨le_rfl, by simp [sweep]⟩
  | cons p ps ih =>
      rw [sweep]
      split_ifs with hswap
      · have hle := (ih p).1.trans (h.of_swap hswap)
        refine ⟨hle, fun b hb ↦ ?_⟩
        rcases List.mem_cons.mp hb with rfl | hb
        · exact hle
        · exact (ih p).2 b hb
      · refine ⟨(ih cur).1, fun b hb ↦ ?_⟩
        rcases List.mem_cons.mp hb with rfl | hb
        · exact (ih cur).1.trans (h.of_keep hswap)
        · exact (ih cur).2 b hb

theorem Follows.sort_pairwise (h : Follows swap key) {n : ℕ} {ps : List α} (hn : ps.length ≤ n) :
    (sort swap n ps).Pairwise fun a b ↦ key a ≤ key b := by
  induction n generalizing ps with
  | zero =>
      rw [List.length_eq_zero_iff.mp (Nat.le_zero.mp hn)]
      exact List.Pairwise.nil
  | succ n ih =>
      cases ps with
      | nil => exact List.Pairwise.nil
      | cons p ps =>
          have hlen := (sweep_perm swap p ps).length_eq
          simp only [List.length_cons] at hlen hn
          refine List.pairwise_cons.mpr ⟨fun b hb ↦ ?_, ih (by omega)⟩
          exact (h.sweep_le p ps).2 b ((sort_perm swap n _).mem_iff.mp hb)

/-- Distinct keys stand in strict order. -/
theorem Follows.sort_strict (h : Follows swap key) {ps : List α} (hkeys : (ps.map key).Nodup) :
    (sort swap ps.length ps).Pairwise fun a b ↦ key a < key b := by
  have hle := h.sort_pairwise (le_refl ps.length)
  have hnodup := ((sort_perm swap ps.length ps).map key).nodup_iff.mpr hkeys
  exact hle.imp₂ (fun _ _ hab hne ↦ lt_of_le_of_ne hab hne) (List.pairwise_map.mp hnodup)

end Loops

/-- Two lists with the same keys have the same keys in the same order once they are sorted,
whichever tests did it. -/
theorem Follows.sort_keys [LinearOrder κ] {swap : α → α → Bool} {swap' : β → β → Bool}
    {key : α → κ} {key' : β → κ} (h : Follows swap key) (h' : Follows swap' key') {ps : List α}
    {qs : List β} (hperm : (ps.map key).Perm (qs.map key')) :
    (sort swap ps.length ps).map key = (sort swap' qs.length qs).map key' := by
  refine List.Perm.eq_of_pairwise (fun a b _ _ (hab : a ≤ b) hba ↦ le_antisymm hab hba)
    (List.pairwise_map.mpr (h.sort_pairwise le_rfl))
    (List.pairwise_map.mpr (h'.sort_pairwise le_rfl)) ?_
  exact ((sort_perm swap _ ps).map key).trans
    (hperm.trans ((sort_perm swap' _ qs).map key').symm)

/-- Among the first `k` of a list in strict order are the entries with fewer than `k` before. -/
theorem mem_take_iff {r : α → α → Prop} [DecidableRel r] (hasymm : ∀ a b, r a b → ¬ r b a)
    {l : List α} (hl : l.Pairwise r) {a : α} (ha : a ∈ l) (k : ℕ) :
    a ∈ l.take k ↔ l.countP (fun b ↦ r b a) < k := by
  induction l generalizing k with
  | nil => cases ha
  | cons x xs ih =>
      obtain ⟨hx, hxs⟩ := List.pairwise_cons.mp hl
      cases k with
      | zero => simp
      | succ k =>
          rw [List.take_succ_cons, List.mem_cons, List.countP_cons]
          by_cases hax : a = x
          · subst hax
            have hzero : xs.countP (fun b ↦ r b a) = 0 := by
              rw [List.countP_eq_zero]
              intro b hb
              simpa using hasymm a b (hx b hb)
            have hself : ¬ r a a := fun h ↦ hasymm a a h h
            simp [hzero, hself]
          · have hmem : a ∈ xs := (List.mem_cons.mp ha).resolve_left hax
            have hbefore : r x a := hx a hmem
            simp only [hax, false_or, hbefore, decide_true, if_true, ih hxs hmem]
            omega

end ExchangeSort
