import Mathlib

/-!
# Collecting distinct values

A loop that appends what it meets to an output, unless the output has it
already, and stops when the output is full.
-/

namespace Distinct

variable {α : Type*} [DecidableEq α]

def insertNew (out : List α) (x : α) : List α := if x ∈ out then out else out ++ [x]

/-- The loop without a bound. -/
def distinct (out xs : List α) : List α := xs.foldl insertNew out

/-- The loop with room for `max` values. -/
def collect (max : ℕ) (out : List α) : List α → List α
  | [] => out
  | x :: xs => if max ≤ out.length then out else collect max (insertNew out x) xs

variable {max : ℕ} {out xs ys : List α} {x y : α}

@[simp] theorem mem_insertNew : y ∈ insertNew out x ↔ y ∈ out ∨ y = x := by
  unfold insertNew
  split_ifs with hx
  · exact ⟨.inl, fun h ↦ h.elim id fun heq ↦ heq ▸ hx⟩
  · simp

theorem nodup_insertNew (h : out.Nodup) : (insertNew out x).Nodup := by
  unfold insertNew
  split_ifs with hx
  · exact h
  · rw [← List.concat_eq_append]
    exact h.concat hx

theorem prefix_insertNew : out <+: insertNew out x := by
  unfold insertNew
  split_ifs
  · exact List.prefix_rfl
  · exact List.prefix_append out [x]

theorem length_insertNew_le : (insertNew out x).length ≤ out.length + 1 := by
  unfold insertNew
  split_ifs <;> simp

theorem mem_distinct : y ∈ distinct out xs ↔ y ∈ out ∨ y ∈ xs := by
  induction xs generalizing out with
  | nil => simp [distinct]
  | cons x xs ih =>
      rw [distinct, List.foldl_cons, ← distinct, ih, mem_insertNew, List.mem_cons, or_assoc]

theorem nodup_distinct (h : out.Nodup) : (distinct out xs).Nodup := by
  induction xs generalizing out with
  | nil => exact h
  | cons x xs ih => exact ih (nodup_insertNew h)

theorem prefix_distinct : out <+: distinct out xs := by
  induction xs generalizing out with
  | nil => exact List.prefix_rfl
  | cons x xs ih => exact prefix_insertNew.trans ih

theorem collect_of_full (h : max ≤ out.length) : collect max out xs = out := by
  cases xs with
  | nil => rfl
  | cons x xs => exact if_pos h

/-- A bounded loop keeps the first `max` distinct values. -/
theorem collect_eq_take (h : out.length ≤ max) :
    collect max out xs = (distinct out xs).take max := by
  induction xs generalizing out with
  | nil => exact (List.take_of_length_le h).symm
  | cons x xs ih =>
      by_cases hfull : max ≤ out.length
      · have hprefix : out <+: distinct out (x :: xs) := prefix_distinct
        obtain ⟨more, hmore⟩ := hprefix
        have hlen : out.length = max := le_antisymm h hfull
        rw [collect_of_full hfull, ← hmore, ← hlen, List.take_left]
      · have hroom : (insertNew out x).length ≤ max := by
          have hle : (insertNew out x).length ≤ out.length + 1 := length_insertNew_le
          omega
        rw [collect, if_neg hfull, ih hroom]
        rfl

theorem collect_append (h : out.length ≤ max) :
    collect max out (xs ++ ys) = collect max (collect max out xs) ys := by
  induction xs generalizing out with
  | nil => rfl
  | cons x xs ih =>
      by_cases hfull : max ≤ out.length
      · rw [collect_of_full hfull, collect_of_full hfull, collect_of_full hfull]
      · have hroom : (insertNew out x).length ≤ max := by
          have hle : (insertNew out x).length ≤ out.length + 1 := length_insertNew_le
          omega
        rw [List.cons_append, collect, if_neg hfull, collect, if_neg hfull, ih hroom]

end Distinct
