import Mathlib

/-!
# Runs with an observer

A system takes a step for each event.  An observer writes something down at every
step and changes nothing.  A claim about the history of a run is then a claim
about its last state and the observer's notes, and goes by induction on the run.
-/

namespace Observer

variable {S E N : Type*}

/-- A system and what an observer adds to its notes at a step. -/
structure System (S E N : Type*) where
  step : S → E → Option S
  note : S → E → N → N

/-- The states of the runs whose steps are all allowed, with the notes so far. -/
inductive Reach (sys : System S E N) (allowed : S → N → E → Prop) (s₀ : S) (n₀ : N) :
    S → N → Prop where
  | start : Reach sys allowed s₀ n₀ s₀ n₀
  | step {s s' : S} {n : N} {e : E} (h : Reach sys allowed s₀ n₀ s n) (hallowed : allowed s n e)
      (hstep : sys.step s e = some s') : Reach sys allowed s₀ n₀ s' (sys.note s e n)

variable {sys : System S E N} {allowed : S → N → E → Prop} {s₀ s s' : S} {n₀ n n' : N}

/-- What holds at the start and is kept by every allowed step holds along the run. -/
theorem Reach.invariant {I : S → N → Prop} (hstart : I s₀ n₀)
    (hstep : ∀ {s n e s'}, Reach sys allowed s₀ n₀ s n → I s n → allowed s n e →
      sys.step s e = some s' → I s' (sys.note s e n))
    (h : Reach sys allowed s₀ n₀ s n) : I s n := by
  induction h with
  | start => exact hstart
  | step h hallowed hs ih => exact hstep h ih hallowed hs

theorem Reach.mono {allowed' : S → N → E → Prop} (hsub : ∀ s n e, allowed s n e → allowed' s n e)
    (h : Reach sys allowed s₀ n₀ s n) : Reach sys allowed' s₀ n₀ s n := by
  induction h with
  | start => exact .start
  | step _ hallowed hs ih => exact ih.step (hsub _ _ _ hallowed) hs

/-- A run given by its events, with the notes. -/
def run (sys : System S E N) (r : S × N) (es : List E) : Option (S × N) :=
  es.foldlM (fun r e ↦ (sys.step r.1 e).map fun s' ↦ (s', sys.note r.1 e r.2)) r

theorem Reach.run {es : List E} (hallowed : ∀ s n, ∀ e ∈ es, allowed s n e)
    (h : Reach sys allowed s₀ n₀ s n) (hrun : run sys (s, n) es = some (s', n')) :
    Reach sys allowed s₀ n₀ s' n' := by
  induction es generalizing s n with
  | nil =>
      cases hrun
      exact h
  | cons e es ih =>
      obtain ⟨r, hstep, hrest⟩ := Option.bind_eq_some_iff.mp hrun
      obtain ⟨s₁, hs, rfl⟩ := Option.map_eq_some_iff.mp hstep
      exact ih (fun s n e he ↦ hallowed s n e (List.mem_cons_of_mem _ he))
        (h.step (hallowed s n e List.mem_cons_self) hs) hrest

/-- Every step of the run given by its events is allowed. -/
def checked (sys : System S E N) (allowed : S → N → E → Prop) [∀ s n, DecidablePred (allowed s n)] :
    S → N → List E → Bool
  | _, _, [] => true
  | s, n, e :: es => decide (allowed s n e) &&
      match sys.step s e with
      | some s' => checked sys allowed s' (sys.note s e n) es
      | none => false

theorem Reach.run_of_checked [∀ s n, DecidablePred (allowed s n)] {es : List E}
    (hchecked : checked sys allowed s n es = true) (h : Reach sys allowed s₀ n₀ s n)
    (hrun : Observer.run sys (s, n) es = some (s', n')) : Reach sys allowed s₀ n₀ s' n' := by
  induction es generalizing s n with
  | nil =>
      cases hrun
      exact h
  | cons e es ih =>
      obtain ⟨r, hstep, hrest⟩ := Option.bind_eq_some_iff.mp hrun
      obtain ⟨s₁, hs, rfl⟩ := Option.map_eq_some_iff.mp hstep
      obtain ⟨hallowed, hchecked⟩ := Bool.and_eq_true_iff.mp hchecked
      rw [hs] at hchecked
      exact ih hchecked (h.step (of_decide_eq_true hallowed) hs) hrest

/-- A checked run can be made. -/
theorem exists_run_of_checked [∀ s n, DecidablePred (allowed s n)] {es : List E}
    (hchecked : checked sys allowed s n es = true) :
    ∃ s' n', Observer.run sys (s, n) es = some (s', n') := by
  induction es generalizing s n with
  | nil => exact ⟨s, n, rfl⟩
  | cons e es ih =>
      have hrest := (Bool.and_eq_true_iff.mp hchecked).2
      cases hs : sys.step s e with
      | none =>
          rw [hs] at hrest
          cases hrest
      | some s₁ =>
          rw [hs] at hrest
          obtain ⟨s', n', hrun⟩ := ih hrest
          refine ⟨s', n', ?_⟩
          simpa [Observer.run, List.foldlM_cons, hs] using hrun

/-- Something holds at every step of the run given by its events. -/
def Along (sys : System S E N) (P : S → N → E → Prop) : S → N → List E → Prop
  | _, _, [] => True
  | s, n, e :: es => P s n e ∧ ∀ s' ∈ sys.step s e, Along sys P s' (sys.note s e n) es

/-- What comes to the same under an invariant comes to the same along a run. -/
theorem along_congr {P Q : S → N → E → Prop} {I : S → N → Prop}
    (hstep : ∀ {s n e s'}, I s n → sys.step s e = some s' → I s' (sys.note s e n))
    (hiff : ∀ {s n} e, I s n → (P s n e ↔ Q s n e)) (h : I s n) (es : List E) :
    Along sys P s n es ↔ Along sys Q s n es := by
  induction es generalizing s n with
  | nil => exact Iff.rfl
  | cons e es ih =>
      exact and_congr (hiff e h) (forall₂_congr fun s' hs' ↦ ih (hstep h hs'))

/-! ## Runs without an end -/

/-- A run without an end whose steps are all allowed. -/
def Endless (sys : System S E N) (allowed : S → N → E → Prop) (r : S × N) : Prop :=
  ∃ (σ : ℕ → S × N) (ε : ℕ → E), σ 0 = r ∧ ∀ k, allowed (σ k).1 (σ k).2 (ε k) ∧
    sys.step (σ k).1 (ε k) = some (σ (k + 1)).1 ∧
    (σ (k + 1)).2 = sys.note (σ k).1 (ε k) (σ k).2

/-- Where every state that satisfies `I` has an allowed step to such a state. -/
theorem endless_of_progress {I : S → N → Prop}
    (hstep : ∀ {s n}, I s n → ∃ e s', allowed s n e ∧ sys.step s e = some s' ∧
      I s' (sys.note s e n)) (h : I s n) : Endless sys allowed (s, n) := by
  have hnext : ∀ r : S × N, ∃ (e : E) (s' : S), I r.1 r.2 → allowed r.1 r.2 e ∧
      sys.step r.1 e = some s' ∧ I s' (sys.note r.1 e r.2) := by
    intro r
    by_cases hr : I r.1 r.2
    · obtain ⟨e, s', hes⟩ := hstep hr
      exact ⟨e, s', fun _ ↦ hes⟩
    · obtain ⟨e, -⟩ := hstep h
      exact ⟨e, r.1, fun hI ↦ absurd hI hr⟩
  choose e s' hes using hnext
  let next := fun r : S × N ↦ (s' r, sys.note r.1 (e r) r.2)
  have hinv : ∀ k, I (next^[k] (s, n)).1 (next^[k] (s, n)).2 := by
    intro k
    induction k with
    | zero => exact h
    | succ k ih =>
        rw [Function.iterate_succ_apply']
        exact (hes _ ih).2.2
  refine ⟨fun k ↦ next^[k] (s, n), fun k ↦ e (next^[k] (s, n)), rfl, fun k ↦ ?_⟩
  obtain ⟨hallowed, hs, -⟩ := hes _ (hinv k)
  simp only [Function.iterate_succ_apply']
  exact ⟨hallowed, hs, rfl⟩

/-- Events that lead back to where they started can be repeated for ever. -/
theorem endless_of_cycle {es : List E} (hne : es ≠ [])
    (hallowed : ∀ s n, ∀ e ∈ es, allowed s n e) (hcycle : es.foldlM sys.step s = some s) :
    Endless sys allowed (s, n) := by
  refine endless_of_progress (I := fun s' _ ↦ ∃ rest, rest ≠ [] ∧ rest ⊆ es ∧
    rest.foldlM sys.step s' = some s) ?_ ⟨es, hne, List.Subset.refl _, hcycle⟩
  rintro s' n' ⟨rest, hrest, hsub, hrun⟩
  obtain ⟨e, rest, rfl⟩ := List.exists_cons_of_ne_nil hrest
  rw [List.foldlM_cons] at hrun
  obtain ⟨s'', hstep, hrun⟩ := Option.bind_eq_some_iff.mp hrun
  refine ⟨e, s'', hallowed s' n' e (hsub List.mem_cons_self), hstep, ?_⟩
  rcases List.eq_nil_or_concat rest with rfl | hlast
  · obtain rfl : s'' = s := Option.some.inj hrun
    exact ⟨es, hne, List.Subset.refl _, hcycle⟩
  · refine ⟨rest, ?_, fun x hx ↦ hsub (List.mem_cons_of_mem _ hx), hrun⟩
    rintro rfl
    obtain ⟨_, _, h⟩ := hlast
    simp at h

end Observer
