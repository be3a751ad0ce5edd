import Mathlib

/-!
# Histories

Lists that grow at their end, statements about each entry and what came before
it, and the part of a history after the last entry of a kind.
-/

namespace History

variable {α : Type*} {P : List α → α → Prop} {p : α → Bool}

/-- `P past a` for every entry `a` of the history and the entries before it. -/
def Along (P : List α → α → Prop) (hist : List α) : Prop :=
  ∀ past a later, hist = past ++ a :: later → P past a

@[simp] theorem along_nil : Along P [] := by
  intro past a later h
  simp at h

@[simp] theorem along_concat {hist : List α} {a : α} :
    Along P (hist ++ [a]) ↔ Along P hist ∧ P hist a := by
  constructor
  · refine fun h ↦ ⟨fun past b later hb ↦ ?_, h hist a [] rfl⟩
    exact h past b (later ++ [a]) (by rw [hb, List.append_assoc, List.cons_append])
  · rintro ⟨h, ha⟩ past b later hb
    rcases List.eq_nil_or_concat later with rfl | ⟨later, c, rfl⟩
    · obtain ⟨rfl, hba⟩ := List.append_inj' hb rfl
      rw [← List.singleton_inj.mp hba]
      exact ha
    · rw [List.concat_eq_append, ← List.cons_append, ← List.append_assoc] at hb
      exact h past b later (List.append_inj' hb rfl).1

/-- The entries after the last one with `p`. -/
def since (p : α → Bool) (hist : List α) : List α := hist.rtakeWhile fun a ↦ !p a

@[simp] theorem since_nil : since p [] = [] := rfl

theorem since_concat_pos {a : α} (h : p a = true) (hist : List α) :
    since p (hist ++ [a]) = [] := by
  simp [since, h]

theorem since_concat_neg {a : α} (h : p a = false) (hist : List α) :
    since p (hist ++ [a]) = since p hist ++ [a] := by
  simp [since, h]

end History
