import Mathlib

/-!
# A maximum kept up to date

The greatest member of a set after one member was added, taken out or put in
the place of another, told from the greatest member before.
-/

namespace RunningMax

variable {α : Type*} [LinearOrder α] {S : Set α} {m q q' : α}

theorem isGreatest_add (h : IsGreatest S m) :
    IsGreatest (insert q S) (if m < q then q else m) := by
  split_ifs with hq
  · refine ⟨Set.mem_insert q S, ?_⟩
    rintro x (rfl | hx)
    · exact le_rfl
    · exact (h.2 hx).trans hq.le
  · refine ⟨Set.mem_insert_of_mem q h.1, ?_⟩
    rintro x (rfl | hx)
    · exact not_lt.mp hq
    · exact h.2 hx

/-- A member is replaced by one that nothing exceeds. -/
theorem isGreatest_raise (h : IsGreatest (insert q S) m) (hq : m ≤ q') :
    IsGreatest (insert q' S) q' := by
  refine ⟨Set.mem_insert q' S, ?_⟩
  rintro x (rfl | hx)
  · exact le_rfl
  · exact (h.2 (Set.mem_insert_of_mem q hx)).trans hq

/-- A member below the maximum is taken out. -/
theorem isGreatest_remove (h : IsGreatest (insert q S) m) (hq : q < m) : IsGreatest S m :=
  ⟨h.1.resolve_left hq.ne', fun _ hx ↦ h.2 (Set.mem_insert_of_mem q hx)⟩

/-- A member below the maximum is replaced by another one that does not exceed it. -/
theorem isGreatest_replace (h : IsGreatest (insert q S) m) (hq : q < m) (hq' : q' ≤ m) :
    IsGreatest (insert q' S) m := by
  have hm := isGreatest_add (q := q') (isGreatest_remove h hq)
  rwa [if_neg (not_lt.mpr hq')] at hm

end RunningMax
