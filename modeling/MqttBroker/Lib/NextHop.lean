import Mathlib

/-!
# The next vertex on the way

Between two vertices of a tree there is one path.  The neighbour with which it
begins is the next vertex on the way from the one to the other.
-/

open SimpleGraph

namespace NextHop

variable {V : Type*} {G : SimpleGraph V} {t u v w x : V}

/-- `u` is the neighbour of `v` on a path from `v` to `x`. -/
def Next (G : SimpleGraph V) (v x u : V) : Prop :=
  ∃ (h : G.Adj v u) (p : G.Walk u x), (Walk.cons h p).IsPath

theorem Next.adj (h : Next G v x u) : G.Adj v u := h.1

theorem Next.ne (h : Next G v x u) : v ≠ x := by
  rintro rfl
  obtain ⟨hadj, p, hp⟩ := h
  exact ((Walk.cons_isPath_iff hadj p).mp hp).2 p.end_mem_support

theorem next_of_adj (h : G.Adj v u) : Next G v u u :=
  ⟨h, .nil, (Walk.cons_isPath_iff h .nil).mpr ⟨.nil, by simpa using h.ne⟩⟩

theorem Next.unique (hG : G.IsAcyclic) (hu : Next G v x u) (hw : Next G v x w) : u = w := by
  obtain ⟨hadj, p, hp⟩ := hu
  obtain ⟨hadj', q, hq⟩ := hw
  have heq := congrArg Subtype.val
    ((hG.subsingleton_path v x).elim ⟨.cons hadj p, hp⟩ ⟨.cons hadj' q, hq⟩)
  simpa using congrArg Walk.snd heq

/-- The way goes on from the next vertex, if that is not its end, and not back. -/
theorem Next.onward (h : Next G v x u) : x = u ∨ ∃ t, t ≠ v ∧ Next G u x t := by
  obtain ⟨hadj, p, hp⟩ := h
  obtain ⟨hp, hv⟩ := (Walk.cons_isPath_iff hadj p).mp hp
  cases p with
  | nil => exact .inl rfl
  | cons hut q =>
      refine .inr ⟨_, ?_, hut, q, hp⟩
      rintro rfl
      exact hv (by simp)

theorem Next.not_back (hG : G.IsAcyclic) (h : Next G v x u) : ¬ Next G u x v := by
  intro hback
  rcases h.onward with rfl | ⟨t, hne, ht⟩
  · exact hback.ne rfl
  · exact hne (ht.unique hG hback)

theorem exists_next (hG : G.Connected) (hne : v ≠ x) : ∃ u, Next G v x u := by
  classical
  obtain ⟨p, hp⟩ := (hG v x).exists_isPath
  cases p with
  | nil => exact absurd rfl hne
  | cons hadj q => exact ⟨_, hadj, q, hp⟩

/-- Of two neighbours one is next to the other on the way to a vertex. -/
theorem next_or_back (hG : G.IsTree) (hadj : G.Adj v u) (x : V) : Next G v x u ∨ Next G u x v := by
  classical
  by_cases hux : u = x
  · subst hux
    exact .inl (next_of_adj hadj)
  · obtain ⟨p, hp⟩ := (hG.connected u x).exists_isPath
    by_cases hv : v ∈ p.support
    · -- the path from `u` begins with `v`
      have hsnd := hG.isAcyclic.eq_snd_of_adj_start hp hadj.symm hv
      cases p with
      | nil => exact absurd rfl hux
      | cons hut q =>
          rw [Walk.snd_cons] at hsnd
          subst hsnd
          exact .inr ⟨hut, q, hp⟩
    · exact .inl ⟨hadj, p, (Walk.cons_isPath_iff hadj p).mpr ⟨hp, hv⟩⟩

/-- From a neighbour that is not next on it, the way leads through the vertex. -/
theorem Next.through (hG : G.IsTree) (h : Next G v x u) (hadj : G.Adj v w) (hne : w ≠ u) :
    Next G w x v :=
  (next_or_back hG hadj x).resolve_left fun hw ↦ hne (hw.unique hG.isAcyclic h)

/-- What holds at `x` and goes on to a vertex from the next one on the way holds
everywhere. -/
theorem forall_of_next (hG : G.Connected) {P : V → Prop} (hself : P x)
    (hstep : ∀ v u, Next G v x u → P u → P v) (v : V) : P v := by
  classical
  obtain ⟨p, hp⟩ := (hG v x).exists_isPath
  induction p with
  | nil => exact hself
  | cons hadj q ih =>
      exact hstep _ _ ⟨hadj, q, hp⟩ (ih hself hstep ((Walk.cons_isPath_iff hadj q).mp hp).1)

end NextHop
