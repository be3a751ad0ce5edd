import Mathlib

/-!
# The first match and the best one

A search that stops at the first entry that matches takes what this entry grants.  It is as
much as the best entry grants, up to a cap, if no entry behind it grants more below the cap.
-/

namespace FirstMatch

variable {ι α : Type*}

/-- What a search finds stands in front of everything else that it could find. -/
theorem find?_foremost {R : ι → ι → Prop} {l : List ι} (h : l.Pairwise R) {p : ι → Bool} {i : ι}
    (hi : l.find? p = some i) : i ∈ l ∧ p i = true ∧ ∀ j ∈ l, p j = true → j ≠ i → R i j := by
  obtain ⟨hp, front, back, rfl, hfront⟩ := List.find?_eq_some_iff_append.mp hi
  refine ⟨by simp, hp, fun j hj hpj hne ↦ ?_⟩
  rcases List.mem_append.mp hj with hj | hj
  · have := hfront j hj
    simp [hpj] at this
  · rcases List.mem_cons.mp hj with rfl | hj
    · exact absurd rfl hne
    · exact List.rel_of_pairwise_cons (List.pairwise_append.mp h).2.1 hj

variable [LinearOrder α]

/-- `q` is the greatest of the grants, up to a cap. -/
def Best (cap : α) (grants : Set α) (q : α) : Prop := ∃ m, IsGreatest grants m ∧ q = min cap m

theorem Best.unique {cap : α} {grants : Set α} {q q' : α} (h : Best cap grants q)
    (h' : Best cap grants q') : q = q' := by
  obtain ⟨m, hm, rfl⟩ := h
  obtain ⟨m', hm', rfl⟩ := h'
  rw [hm.unique hm']

section

variable {cap : α} {s : Set ι} (hs : s.Finite) {f : ι → α} {i : ι} (hi : i ∈ s)

include hs hi

theorem exists_best : ∃ q, Best cap (f '' s) q := by
  obtain ⟨k, hk, hmax⟩ := Set.exists_max_image s f hs ⟨i, hi⟩
  refine ⟨min cap (f k), f k, ⟨Set.mem_image_of_mem f hk, ?_⟩, rfl⟩
  rintro _ ⟨j, hj, rfl⟩
  exact hmax j hj

/-- One entry grants as much as the best one, if no other grants more below the cap. -/
theorem best_iff : Best cap (f '' s) (min cap (f i)) ↔
    ∀ j ∈ s, min cap (f j) ≤ min cap (f i) := by
  constructor
  · rintro ⟨m, ⟨-, hmax⟩, hq⟩ j hj
    rw [hq]
    exact min_le_min_left cap (hmax (Set.mem_image_of_mem f hj))
  · intro h
    obtain ⟨k, hk, hmax⟩ := Set.exists_max_image s f hs ⟨i, hi⟩
    refine ⟨f k, ⟨Set.mem_image_of_mem f hk, ?_⟩, ?_⟩
    · rintro _ ⟨j, hj, rfl⟩
      exact hmax j hj
    · exact le_antisymm (min_le_min_left cap (hmax i hi)) (h k hk)

end

end FirstMatch
