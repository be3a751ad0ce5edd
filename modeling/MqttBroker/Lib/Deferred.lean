import Mathlib

/-!
# Decisions that are announced later

Threads decide on a value for a key one at a time, and announce it to the receivers
afterwards, each at its own pace.  Decisions are numbered.  If no announcement reaches a
receiver after a later one of another value, then the receivers know the last value decided
once all is announced.
-/

namespace Deferred

variable {K R T V : Type*}

/-- What is known along a run: `decided` is the number and value of the last decision for each
key, `sending` what a thread still has to announce, `ticket` the number of its decision,
`latest` the greatest number that a receiver was told, and `heard` the value it was told last. -/
structure Inv (decided : K → Option (ℕ × V)) (sending : T → Option (K × V × List R))
    (ticket : T → ℕ) (latest : R → K → ℕ) (heard : R → K → Option V) (now : ℕ) : Prop where
  decided_le : ∀ k d, decided k = some d → d.1 ≤ now
  pending : ∀ t k v targets, sending t = some (k, v, targets) → ∃ d, decided k = some d ∧
    (ticket t < d.1 ∨ ticket t = d.1 ∧ v = d.2)
  latest_le : ∀ r k d, decided k = some d → latest r k ≤ d.1
  silent : ∀ r k, decided k = none → heard r k = none ∧ latest r k = 0
  told : ∀ r k d, decided k = some d → (latest r k = d.1 ∧ heard r k = some d.2) ∨
    ∃ t targets, sending t = some (k, d.2, targets) ∧ ticket t = d.1 ∧ r ∈ targets

variable {decided : K → Option (ℕ × V)} {sending : T → Option (K × V × List R)} {ticket : T → ℕ}
  {latest : R → K → ℕ} {heard : R → K → Option V} {now : ℕ}

theorem inv_start : Inv (fun _ : K ↦ (none : Option (ℕ × V)))
    (fun _ : T ↦ (none : Option (K × V × List R))) (fun _ ↦ 0) (fun _ _ ↦ 0) (fun _ _ ↦ none)
    0 where
  decided_le _ _ h := nomatch h
  pending _ _ _ _ h := nomatch h
  latest_le _ _ _ h := nomatch h
  silent _ _ _ := ⟨rfl, rfl⟩
  told _ _ _ h := nomatch h

namespace Inv

variable [DecidableEq K] [DecidableEq R] [DecidableEq T]
  (h : Inv decided sending ticket latest heard now) {t : T} {k : K} {v : V}

include h

omit [DecidableEq R] in
/-- A thread with nothing to announce decides. -/
theorem decide (ht : sending t = none) {targets : List R} (hall : ∀ r, r ∈ targets) :
    Inv (Function.update decided k (some (now + 1, v)))
      (Function.update sending t (some (k, v, targets))) (Function.update ticket t (now + 1))
      latest heard (now + 1) where
  decided_le k' d hd := by
    rw [Function.update_apply] at hd
    split_ifs at hd
    · cases hd
      exact le_rfl
    · exact (h.decided_le k' d hd).trans (Nat.le_succ _)
  pending t' k' v' targets' hs := by
    by_cases ht' : t' = t
    · subst ht'
      rw [Function.update_self] at hs ⊢
      cases hs
      exact ⟨_, Function.update_self _ _ _, .inr ⟨rfl, rfl⟩⟩
    · rw [Function.update_of_ne ht'] at hs ⊢
      obtain ⟨d, hd, hold⟩ := h.pending t' k' v' targets' hs
      by_cases hk : k' = k
      · subst hk
        have hle := h.decided_le k' d hd
        exact ⟨_, Function.update_self _ _ _, .inl (by dsimp only; omega)⟩
      · exact ⟨d, by rw [Function.update_of_ne hk, hd], hold⟩
  latest_le r k' d hd := by
    by_cases hk : k' = k
    · subst hk
      rw [Function.update_self] at hd
      cases hd
      cases hold : decided k' with
      | none =>
          rw [(h.silent r k' hold).2]
          exact Nat.zero_le _
      | some d =>
          exact ((h.latest_le r k' d hold).trans (h.decided_le k' d hold)).trans (Nat.le_succ _)
    · rw [Function.update_of_ne hk] at hd
      exact h.latest_le r k' d hd
  silent r k' hd := by
    by_cases hk : k' = k
    · subst hk
      rw [Function.update_self] at hd
      cases hd
    · rw [Function.update_of_ne hk] at hd
      exact h.silent r k' hd
  told r k' d hd := by
    by_cases hk : k' = k
    · subst hk
      rw [Function.update_self] at hd
      cases hd
      exact .inr ⟨t, targets, Function.update_self _ _ _, Function.update_self _ _ _, hall r⟩
    · rw [Function.update_of_ne hk] at hd
      refine (h.told r k' d hd).imp id ?_
      rintro ⟨t', targets', hs, hticket, hr⟩
      have ht' : t' ≠ t := by
        rintro rfl
        cases ht.symm.trans hs
      exact ⟨t', targets', by rw [Function.update_of_ne ht', hs],
        by rw [Function.update_of_ne ht', hticket], hr⟩

/-- A thread tells one receiver, unless this one has heard another value from a later decision. -/
theorem send {r : R} {rest : List R} (ht : sending t = some (k, v, r :: rest))
    (horder : latest r k ≤ ticket t ∨ heard r k = some v) :
    Inv decided (Function.update sending t (some (k, v, rest))) ticket
      (Function.update latest r (Function.update (latest r) k (max (latest r k) (ticket t))))
      (Function.update heard r (Function.update (heard r) k (some v))) now where
  decided_le := h.decided_le
  pending t' k' v' targets' hs := by
    by_cases ht' : t' = t
    · subst ht'
      rw [Function.update_self] at hs
      cases hs
      exact h.pending t' k v _ ht
    · rw [Function.update_of_ne ht'] at hs
      exact h.pending t' k' v' targets' hs
  latest_le r' k' d hd := by
    by_cases hr : r' = r
    · subst hr
      rw [Function.update_self]
      by_cases hk : k' = k
      · subst hk
        rw [Function.update_self]
        obtain ⟨d', hd', hold⟩ := h.pending t k' v _ ht
        obtain rfl := Option.some.inj (hd.symm.trans hd')
        exact max_le (h.latest_le r' k' d hd) (by omega)
      · rw [Function.update_of_ne hk]
        exact h.latest_le r' k' d hd
    · rw [Function.update_of_ne hr]
      exact h.latest_le r' k' d hd
  silent r' k' hd := by
    have hk : k' ≠ k := by
      rintro rfl
      obtain ⟨d', hd', -⟩ := h.pending t k' v _ ht
      cases hd.symm.trans hd'
    by_cases hr : r' = r
    · subst hr
      rw [Function.update_self, Function.update_self, Function.update_of_ne hk,
        Function.update_of_ne hk]
      exact h.silent r' k' hd
    · rw [Function.update_of_ne hr, Function.update_of_ne hr]
      exact h.silent r' k' hd
  told r' k' d hd := by
    -- who still has to tell `r'` goes on to, unless it is `r` who is told by `t` now
    have hkeep : (∃ t' targets, sending t' = some (k', d.2, targets) ∧ ticket t' = d.1 ∧
          r' ∈ targets) → ¬ (r' = r ∧ k' = k ∧ ticket t = d.1) →
        ∃ t' targets, Function.update sending t (some (k, v, rest)) t' =
          some (k', d.2, targets) ∧ ticket t' = d.1 ∧ r' ∈ targets := by
      rintro ⟨t', targets, hs, hticket, hr⟩ hnot
      by_cases ht' : t' = t
      · subst ht'
        cases ht.symm.trans hs
        refine ⟨t', rest, Function.update_self _ _ _, hticket, ?_⟩
        exact (List.mem_cons.mp hr).resolve_left fun hr ↦ hnot ⟨hr, rfl, hticket⟩
      · exact ⟨t', targets, by rw [Function.update_of_ne ht', hs], hticket, hr⟩
    by_cases hrk : r' = r ∧ k' = k
    · obtain ⟨rfl, rfl⟩ := hrk
      simp only [Function.update_self]
      obtain ⟨d', hd', hold⟩ := h.pending t k' v _ ht
      obtain rfl := Option.some.inj (hd.symm.trans hd')
      have hle := h.latest_le r' k' d hd
      rcases hold with hold | ⟨hlast, rfl⟩
      · rcases h.told r' k' d hd with ⟨hlatest, hheard⟩ | hpending
        · rcases horder with horder | hsame
          · omega
          · exact .inl ⟨by omega, hsame.symm.trans hheard⟩
        · exact .inr (hkeep hpending fun hnow ↦ by omega)
      · exact .inl ⟨by omega, rfl⟩
    · have hsame : Function.update latest r (Function.update (latest r) k
          (max (latest r k) (ticket t))) r' k' = latest r' k' ∧
          Function.update heard r (Function.update (heard r) k (some v)) r' k' = heard r' k' := by
        by_cases hr : r' = r
        · subst hr
          have hk : k' ≠ k := fun hk ↦ hrk ⟨rfl, hk⟩
          simp [hk]
        · simp [hr]
      rw [hsame.1, hsame.2]
      exact (h.told r' k' d hd).imp id fun hpending ↦
        hkeep hpending fun hnow ↦ hrk ⟨hnow.1, hnow.2.1⟩

omit [DecidableEq K] [DecidableEq R] in
/-- A thread has announced its decision to all. -/
theorem finish (ht : sending t = some (k, v, [])) :
    Inv decided (Function.update sending t none) ticket latest heard now where
  decided_le := h.decided_le
  pending t' k' v' targets' hs := by
    by_cases ht' : t' = t
    · subst ht'
      rw [Function.update_self] at hs
      cases hs
    · rw [Function.update_of_ne ht'] at hs
      exact h.pending t' k' v' targets' hs
  latest_le := h.latest_le
  silent := h.silent
  told r k' d hd := by
    refine (h.told r k' d hd).imp id ?_
    rintro ⟨t', targets, hs, hticket, hr⟩
    have ht' : t' ≠ t := by
      rintro rfl
      cases ht.symm.trans hs
      cases hr
    exact ⟨t', targets, by rw [Function.update_of_ne ht', hs], hticket, hr⟩

omit [DecidableEq K] [DecidableEq R] [DecidableEq T] in
/-- When all is announced, every receiver was told the last decision last. -/
theorem heard_eq (hidle : ∀ t, sending t = none) (r : R) (k : K) :
    heard r k = (decided k).map Prod.snd := by
  cases hd : decided k with
  | none => exact (h.silent r k hd).1
  | some d =>
      rcases h.told r k d hd with ⟨-, hheard⟩ | ⟨t, _, hs, -⟩
      · exact hheard
      · cases (hidle t).symm.trans hs

end Inv

end Deferred
