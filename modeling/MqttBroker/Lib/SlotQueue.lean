import Mathlib

/-!
# A queue without head or tail

An array of slots that are filled from the first unused one on, and read in
their order when all are emptied at once.  The used slots are then a prefix of
the array, in the order in which they were filled.
-/

namespace SlotQueue

variable {α β : Type*} {n : ℕ} (used : α → Bool)

/-- The first unused slot. -/
def firstUnused (slots : Fin n → α) : Option (Fin n) :=
  (List.finRange n).find? fun i ↦ !used (slots i)

/-- The used slots come first and hold `waiting`. -/
structure Queued (slots : Fin n → α) (waiting : List α) : Prop where
  fits : waiting.length ≤ n
  slot : ∀ i (h : i < waiting.length), slots ⟨i, h.trans_le fits⟩ = waiting[i]
  all_used : ∀ x ∈ waiting, used x = true
  rest_unused : ∀ i : Fin n, waiting.length ≤ i → used (slots i) = false

variable {used} {slots : Fin n → α} {waiting : List α} {i : Fin n} {x : α}

theorem queued_nil (h : ∀ i, used (slots i) = false) : Queued used slots [] :=
  ⟨Nat.zero_le n, nofun, nofun, fun i _ ↦ h i⟩

theorem Queued.used_iff (h : Queued used slots waiting) :
    used (slots i) = true ↔ i < waiting.length := by
  constructor
  · intro hi
    by_contra hlt
    rw [h.rest_unused i (not_lt.mp hlt)] at hi
    cases hi
  · intro hlt
    rw [show i = ⟨i, hlt.trans_le h.fits⟩ from rfl, h.slot i hlt]
    exact h.all_used _ (List.getElem_mem hlt)

theorem Queued.firstUnused_eq_none_iff (h : Queued used slots waiting) :
    firstUnused used slots = none ↔ waiting.length = n := by
  simp only [firstUnused, List.find?_eq_none, List.mem_finRange, true_implies, Bool.not_eq_true',
    Bool.not_eq_false]
  constructor
  · intro hall
    by_contra hne
    have hlast := hall ⟨waiting.length, lt_of_le_of_ne h.fits hne⟩
    exact absurd (h.used_iff.mp hlast) (lt_irrefl _)
  · intro hfull i
    rw [h.used_iff, hfull]
    exact i.isLt

/-- The first unused slot is the one after the last used. -/
theorem Queued.firstUnused_some (h : Queued used slots waiting)
    (hi : firstUnused used slots = some i) : i = waiting.length := by
  obtain ⟨hunused, k, hk, rfl, hbefore⟩ := List.find?_eq_some_iff_getElem.mp hi
  simp only [List.getElem_finRange, Fin.val_cast, Bool.not_eq_true'] at hunused hbefore ⊢
  refine le_antisymm ?_ ?_
  · by_contra hlt
    have hj := hbefore waiting.length (not_le.mp hlt)
    have hused := h.used_iff.mp (by simpa using hj)
    exact absurd hused (by simp)
  · by_contra hlt
    have hused := h.used_iff.mpr (show (Fin.cast (by simp) ⟨k, hk⟩ : Fin n).val <
      waiting.length by simpa using hlt)
    rw [hused] at hunused
    cases hunused

theorem Queued.push (h : Queued used slots waiting) (hi : firstUnused used slots = some i)
    (hx : used x = true) : Queued used (Function.update slots i x) (waiting ++ [x]) := by
  have hval := h.firstUnused_some hi
  have hlen : (waiting ++ [x]).length = waiting.length + 1 := by simp
  refine ⟨?_, fun j hj ↦ ?_, ?_, fun j hj ↦ ?_⟩
  · rw [hlen, ← hval]
    exact i.isLt
  · by_cases hlast : j = waiting.length
    · subst hlast
      rw [show (⟨waiting.length, _⟩ : Fin n) = i from Fin.ext hval.symm, Function.update_self]
      simp
    · have hlt : j < waiting.length := by omega
      rw [Function.update_of_ne, h.slot j hlt, List.getElem_append_left hlt]
      intro heq
      exact hlast ((congrArg Fin.val heq).trans hval)
  · simpa [or_imp, forall_and] using ⟨h.all_used, hx⟩
  · rw [hlen] at hj
    rw [Function.update_of_ne, h.rest_unused j (by omega)]
    rintro rfl
    omega

/-- Emptying all slots reads the waiting entries in their order. -/
theorem Queued.flatMap (h : Queued used slots waiting) (f : α → List β) :
    ((List.finRange n).flatMap fun i ↦ if used (slots i) then f (slots i) else []) =
      waiting.flatMap f := by
  have hmap : ((List.finRange n).flatMap fun i ↦ if used (slots i) then f (slots i) else []) =
      (List.ofFn slots).flatMap fun x ↦ if used x then f x else [] := by
    rw [List.ofFn_eq_map, List.flatMap_map]
  have htake : (List.ofFn slots).take waiting.length = waiting := by
    refine List.ext_getElem (by simp [h.fits]) fun j _ hj ↦ ?_
    simp [h.slot j hj]
  have hdrop : ∀ x ∈ (List.ofFn slots).drop waiting.length, used x = false := by
    intro x hx
    obtain ⟨j, hj, rfl⟩ := List.getElem_of_mem hx
    rw [List.getElem_drop, List.getElem_ofFn]
    exact h.rest_unused _ (Nat.le_add_right _ _)
  rw [hmap, ← List.take_append_drop waiting.length (List.ofFn slots), htake, List.flatMap_append]
  have hrest : ((List.ofFn slots).drop waiting.length).flatMap
      (fun x ↦ if used x then f x else []) = [] := by
    rw [List.flatMap_eq_nil_iff]
    intro x hx
    simp [hdrop x hx]
  rw [hrest, List.append_nil]
  refine List.flatMap_congr fun x hx ↦ ?_
  rw [if_pos (h.all_used x hx)]

end SlotQueue
