import Mathlib.Data.ZMod.Basic
import Mathlib.LinearAlgebra.Matrix.ToLinearEquiv
import Mathlib.Tactic.Linarith
import Mathlib.Tactic.Ring

/-!
# The high part of a linear congruential generator

A generator steps from `x` to `a * x + b` modulo `M` and shows only the quotient
of its states by `D`.  Two states that show the same differ by less than `D`, and
their differences are the powers of `a` times the first one.  Short integer
relations between these powers then hold of the differences as integers, and as
many independent ones as there are outputs leave only the difference zero.
-/

namespace Congruential

variable {M : ℕ} {n : ℕ}

/-- One step of the generator. -/
def next (a b x : ZMod M) : ZMod M := a * x + b

/-- What a state shows. -/
def high (D : ℕ) (x : ZMod M) : ℕ := x.val / D

theorem iterate_next_sub (a b x y : ZMod M) (i : ℕ) :
    (next a b)^[i] x - (next a b)^[i] y = a ^ i * (x - y) := by
  induction i with
  | zero => simp
  | succ i ih =>
      rw [Function.iterate_succ_apply', Function.iterate_succ_apply']
      calc next a b ((next a b)^[i] x) - next a b ((next a b)^[i] y)
          = a * ((next a b)^[i] x - (next a b)^[i] y) := by rw [next, next]; ring
        _ = a ^ (i + 1) * (x - y) := by rw [ih, pow_succ']; ring

theorem abs_val_sub_lt {D : ℕ} (hD : 0 < D) {x y : ZMod M} (h : high D x = high D y) :
    |(x.val : ℤ) - y.val| < D := by
  have hx := Nat.div_add_mod x.val D
  have hy := Nat.div_add_mod y.val D
  have hxlt := Nat.mod_lt x.val hD
  have hylt := Nat.mod_lt y.val hD
  rw [high, high] at h
  rw [h] at hx
  rw [abs_lt]
  omega

/-- So many relations between the powers of `a`, short enough for states that show the same. -/
structure Relates (a : ZMod M) (D : ℕ) (R : Matrix (Fin n) (Fin n) ℤ) : Prop where
  vanishes : ∀ i, ∑ j, (R i j : ZMod M) * a ^ (j : ℕ) = 0
  short : ∀ i, (∑ j, |R i j|) * (D - 1) < M
  independent : R.det ≠ 0

variable {a b x y : ZMod M} {D : ℕ} {R : Matrix (Fin n) (Fin n) ℤ}

/-- A relation holds of small differences as it stands. -/
theorem Relates.mulVec_eq_zero (h : Relates a D R) {d : Fin n → ℤ} {c : ZMod M}
    (hsmall : ∀ j, |d j| < D) (hpow : ∀ j : Fin n, (d j : ZMod M) = a ^ (j : ℕ) * c) :
    R.mulVec d = 0 := by
  funext i
  have hdvd : (M : ℤ) ∣ ∑ j, R i j * d j := by
    rw [← ZMod.intCast_zmod_eq_zero_iff_dvd]
    push_cast
    calc ∑ j, (R i j : ZMod M) * (d j : ZMod M)
        = (∑ j, (R i j : ZMod M) * a ^ (j : ℕ)) * c := by
          rw [Finset.sum_mul]
          exact Finset.sum_congr rfl fun j _ ↦ by rw [hpow]; ring
      _ = 0 := by rw [h.vanishes, zero_mul]
  have hlt : |∑ j, R i j * d j| < M := by
    calc |∑ j, R i j * d j| ≤ ∑ j, |R i j * d j| := Finset.abs_sum_le_sum_abs _ _
      _ ≤ ∑ j, |R i j| * ((D : ℤ) - 1) := by
          apply Finset.sum_le_sum
          intro j _
          rw [abs_mul]
          exact mul_le_mul_of_nonneg_left (Int.le_sub_one_of_lt (hsmall j)) (abs_nonneg _)
      _ = (∑ j, |R i j|) * (D - 1) := (Finset.sum_mul _ _ _).symm
      _ < M := h.short i
  exact Int.eq_zero_of_abs_lt_dvd hdvd hlt

/-- Two runs that show the same in so many states are the same run. -/
theorem Relates.eq_of_high [NeZero M] (h : Relates a D R) (hD : 0 < D) (hn : 0 < n)
    (hhigh : ∀ j < n, high D ((next a b)^[j] x) = high D ((next a b)^[j] y)) : x = y := by
  have hzero := Matrix.eq_zero_of_mulVec_eq_zero h.independent
    (h.mulVec_eq_zero (c := x - y)
      (d := fun j : Fin n ↦ (((next a b)^[j] x).val : ℤ) - ((next a b)^[j] y).val)
      (fun j ↦ abs_val_sub_lt hD (hhigh j j.isLt))
      (fun j ↦ by
        push_cast
        rw [ZMod.natCast_zmod_val, ZMod.natCast_zmod_val, iterate_next_sub]))
  have hval : ((x.val : ℤ) - y.val) = 0 := congrFun hzero ⟨0, hn⟩
  apply ZMod.val_injective
  omega

end Congruential
