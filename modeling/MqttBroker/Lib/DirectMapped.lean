import Mathlib

/-!
# Direct-mapped caches

A cache of keys with one slot for each value of an index function.  A visit looks
for the key in its slot and puts it there if it is not the one found.
-/

namespace DirectMapped

variable {K I : Type*} [DecidableEq K] [DecidableEq I] (index : K → I)

/-- Whether the key is found, and the cache after the visit. -/
def visit (c : I → K) (k : K) : Bool × (I → K) :=
  if c (index k) = k then (true, c) else (false, Function.update c (index k) k)

/-- The cache after visits with the keys `past`. -/
def after (c : I → K) (past : List K) : I → K := past.foldl (fun c k ↦ (visit index c k).2) c

variable {index} {c : I → K} {k : K}

theorem visit_hit : (visit index c k).1 = true ↔ c (index k) = k := by
  unfold visit
  split_ifs with h <;> simp [h]

theorem visit_self : (visit index c k).2 (index k) = k := by
  unfold visit
  split_ifs with h
  · exact h
  · exact Function.update_self _ _ _

theorem visit_of_ne {i : I} (h : i ≠ index k) : (visit index c k).2 i = c i := by
  unfold visit
  split_ifs
  · rfl
  · exact Function.update_of_ne h _ _

@[simp] theorem after_nil : after index c [] = c := rfl

@[simp] theorem after_concat (past : List K) :
    after index c (past ++ [k]) = (visit index (after index c past) k).2 := by
  simp [after]

/-- A slot holds the last key that was visited in it. -/
theorem after_apply (past : List K) (i : I) :
    after index c past i = ((past.filter fun k ↦ index k = i).getLast?).getD (c i) := by
  induction past using List.reverseRecOn with
  | nil => rfl
  | append_singleton past k ih =>
      rw [after_concat, List.filter_append, List.filter_singleton]
      by_cases h : index k = i
      · subst h
        rw [visit_self]
        simp
      · rw [visit_of_ne fun hi ↦ h hi.symm, ih]
        simp [h]

/-! ## Slots with keys from outside a set -/

/-- The slots that hold a key that is not in the set. -/
def foreign [Fintype I] (S : Set K) [DecidablePred (· ∈ S)] (c : I → K) : Finset I :=
  Finset.univ.filter fun i ↦ c i ∉ S

variable [Fintype I] {S : Set K} [DecidablePred (· ∈ S)]

omit [DecidableEq K] [DecidableEq I] in
@[simp] theorem mem_foreign {i : I} : i ∈ foreign S c ↔ c i ∉ S := by simp [foreign]

omit [DecidableEq K] [DecidableEq I] in
theorem foreign_anti {T : Set K} [DecidablePred (· ∈ T)] (h : S ⊆ T) :
    foreign T c ⊆ foreign S c := fun i hi ↦ by
  rw [mem_foreign] at hi ⊢
  exact fun hS ↦ hi (h hS)

theorem foreign_visit_subset (hk : k ∈ S) : foreign S (visit index c k).2 ⊆ foreign S c := by
  intro i hi
  rw [mem_foreign] at hi ⊢
  by_cases h : i = index k
  · subst h
    rw [visit_self] at hi
    exact absurd hk hi
  · rwa [visit_of_ne h] at hi

/-- A key of the set that takes the place of another makes one slot fewer. -/
theorem card_foreign_visit_lt (hk : k ∈ S) (hout : c (index k) ∉ S) :
    (foreign S (visit index c k).2).card < (foreign S c).card := by
  refine Finset.card_lt_card ((Finset.ssubset_iff_of_subset ?_).mpr ⟨index k, ?_, ?_⟩)
  · exact foreign_visit_subset hk
  · rwa [mem_foreign]
  · rw [mem_foreign, visit_self]
    exact fun h ↦ h hk

end DirectMapped
