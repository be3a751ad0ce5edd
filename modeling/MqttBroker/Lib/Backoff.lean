import Mathlib.Algebra.BigOperators.Intervals
import Mathlib.Data.Int.Order.Basic
import Mathlib.Data.List.Basic
import Mathlib.Tactic.Linarith
import Mathlib.Tactic.Ring

/-!
# Attempts with a growing delay

Attempts are made one after the other, and after each of them the next one has to
wait.  The delay is the same after every success and doubles with every failure,
up to a cap.  How long a row of failures takes at least follows from the delays
alone.
-/

namespace Backoff

open Finset

/-- The delay after one more attempt, where it was `d`. -/
def next (base cap d : ℕ) (ok : Bool) : ℕ :=
  if ok then base else if d < base then base else min (2 * d) cap

/-- The delay after so many attempts, the last one first. -/
def delay (base cap : ℕ) : List Bool → ℕ
  | [] => 0
  | ok :: h => next base cap (delay base cap h) ok

variable {base cap : ℕ}

theorem delay_le (hcap : base ≤ cap) (h : List Bool) : delay base cap h ≤ cap := by
  cases h with
  | nil => exact Nat.zero_le _
  | cons ok h =>
      rw [delay, next]
      split_ifs
      · exact hcap
      · exact hcap
      · exact min_le_right _ _

theorem base_le_delay (hcap : base ≤ cap) {h : List Bool} (hne : h ≠ []) :
    base ≤ delay base cap h := by
  cases h with
  | nil => exact absurd rfl hne
  | cons ok h =>
      rw [delay, next]
      split_ifs <;> omega

/-- So many failures in a row double the delay at least so often. -/
theorem le_delay_failures (hcap : base ≤ cap) (k : ℕ) (h : List Bool) :
    min (base * 2 ^ k) cap ≤ delay base cap (List.replicate (k + 1) false ++ h) := by
  induction k with
  | zero =>
      rw [List.replicate_one, pow_zero, mul_one, min_eq_left hcap]
      exact base_le_delay hcap (List.cons_ne_nil _ _)
  | succ k ih =>
      have hbase : base ≤ delay base cap (List.replicate (k + 1) false ++ h) := by
        apply base_le_delay hcap
        simp [List.replicate_succ]
      rw [List.replicate_succ, List.cons_append, delay, next, if_neg Bool.false_ne_true,
        if_neg (by omega), pow_succ]
      have hpow : base * (2 ^ k * 2) = 2 * (base * 2 ^ k) := by ring
      omega

/-- An attempt with its times, or the finding that none was needed. -/
inductive Attempt where
  | tried (begun ended : ℤ) (ok : Bool)
  | unneeded (ended : ℤ)
  deriving DecidableEq

namespace Attempt

def begun : Attempt → ℤ
  | tried begun _ _ => begun
  | unneeded ended => ended

def ended : Attempt → ℤ
  | tried _ ended _ => ended
  | unneeded ended => ended

def ok : Attempt → Bool
  | tried _ _ ok => ok
  | unneeded _ => true

end Attempt

variable {extra : ℕ} {l : List Attempt}

/-- When an attempt after these, the last one first, may begin; at any time if there were none. -/
def due (base cap extra : ℕ) : List Attempt → Option ℤ
  | [] => none
  | a :: l => some (a.ended + delay base cap ((a :: l).map Attempt.ok) + extra)

/-- Every attempt begins when it is due, and not after its end. -/
def Paced (base cap extra : ℕ) : List Attempt → Prop
  | [] => True
  | .tried begun ended _ :: l =>
      begun ≤ ended ∧ (∀ d ∈ due base cap extra l, d ≤ begun) ∧ Paced base cap extra l
  | .unneeded _ :: l => Paced base cap extra l

theorem Paced.tail {a : Attempt} (h : Paced base cap extra (a :: l)) : Paced base cap extra l := by
  cases a with
  | tried begun ended ok => exact h.2.2
  | unneeded ended => exact h

/-- A failure ends after it begins, which is when it is due. -/
theorem Paced.failure {a : Attempt} (h : Paced base cap extra (a :: l)) (hok : a.ok = false) :
    a.begun ≤ a.ended ∧ ∀ d ∈ due base cap extra l, d ≤ a.begun := by
  cases a with
  | tried begun ended ok => exact ⟨h.1, h.2.1⟩
  | unneeded ended => cases hok

/-- Failures in a row take the sum of the delays. -/
theorem Paced.failures_span (hcap : base ≤ cap) {first : Attempt} {fails : List Attempt}
    (h : Paced base cap extra (fails ++ first :: l)) (hfirst : first.ok = false)
    (hfails : ∀ a ∈ fails, a.ok = false) : ∀ last ∈ fails.head?,
      first.ended + ∑ i ∈ range fails.length, (min (base * 2 ^ i) cap + extra : ℕ) ≤
        last.begun := by
  induction fails with
  | nil => simp
  | cons last fails ih =>
      intro a ha
      obtain rfl : last = a := by simpa using ha
      have hrest := ih h.tail fun a ha ↦ hfails a (List.mem_cons_of_mem _ ha)
      obtain ⟨-, hdue⟩ := h.failure (hfails last List.mem_cons_self)
      -- the attempts before this one are the failures that are left and the first one
      have hoks : (fails ++ first :: l).map Attempt.ok =
          List.replicate (fails.length + 1) false ++ l.map Attempt.ok := by
        have hmap : fails.map Attempt.ok = List.replicate fails.length false := by
          rw [List.eq_replicate_iff]
          refine ⟨List.length_map _, fun b hb ↦ ?_⟩
          obtain ⟨a, ha, rfl⟩ := List.mem_map.mp hb
          exact hfails a (List.mem_cons_of_mem _ ha)
        rw [List.map_append, List.map_cons, hmap, hfirst, List.replicate_succ']
        simp
      have hdelay := le_delay_failures hcap fails.length (l.map Attempt.ok)
      rw [← hoks] at hdelay
      have hcast := Int.ofNat_le.mpr hdelay
      rw [List.length_cons, sum_range_succ]
      cases fails with
      | nil =>
          have hle : first.ended + delay base cap (([] ++ first :: l).map Attempt.ok) + extra ≤
              last.begun := hdue _ rfl
          rw [List.length_nil, range_zero, sum_empty, zero_add, Nat.cast_add]
          rw [List.length_nil] at hcast
          omega
      | cons next fails =>
          have hspan := hrest next rfl
          obtain ⟨hended, -⟩ :=
            h.tail.failure (hfails next (List.mem_cons_of_mem _ List.mem_cons_self))
          have hle : next.ended + delay base cap ((next :: fails ++ first :: l).map Attempt.ok) +
              extra ≤ last.begun := hdue _ rfl
          rw [Nat.cast_add, Nat.cast_add]
          omega

end Backoff
