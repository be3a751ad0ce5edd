import Mathlib

/-!
# Selection sort

The sort of an array in place: for each position the best entry from there on
is found and changes places with the entry that is there.  Which of two entries
is better is a parameter; where it follows a key, the entries end up in the
order of their keys.
-/

namespace SelectionSort

variable {α κ : Type*} {n : ℕ}

section Loops

variable (better : α → α → Bool)

/-- The inner loop over some positions. -/
def scan (xs : Fin n → α) (best : Fin n) (js : List (Fin n)) : Fin n :=
  js.foldl (fun best j ↦ if better (xs j) (xs best) then j else best) best

/-- The inner loop for position `i`. -/
def bestFrom (xs : Fin n → α) (i : Fin n) : Fin n :=
  scan better xs i ((List.finRange n).filter (i < ·))

/-- The outer loop's body for position `i`. -/
def pass (xs : Fin n → α) (i : Fin n) : Fin n → α := xs ∘ Equiv.swap i (bestFrom better xs i)

def sort (xs : Fin n → α) : Fin n → α := (List.finRange n).foldl (pass better) xs

theorem foldl_pass_perm (is : List (Fin n)) (xs : Fin n → α) :
    ∃ σ : Equiv.Perm (Fin n), is.foldl (pass better) xs = xs ∘ σ := by
  induction is generalizing xs with
  | nil => exact ⟨Equiv.refl _, rfl⟩
  | cons i is ih =>
      obtain ⟨σ, hσ⟩ := ih (pass better xs i)
      refine ⟨σ.trans (Equiv.swap i (bestFrom better xs i)), ?_⟩
      rw [List.foldl_cons, hσ]
      rfl

theorem sort_perm (xs : Fin n → α) : (List.ofFn (sort better xs)).Perm (List.ofFn xs) := by
  obtain ⟨σ, hσ⟩ := foldl_pass_perm better (List.finRange n) xs
  rw [sort, hσ]
  exact Equiv.Perm.ofFn_comp_perm σ xs

theorem scan_mem (xs : Fin n → α) (best : Fin n) (js : List (Fin n)) :
    scan better xs best js ∈ best :: js := by
  induction js generalizing best with
  | nil => exact List.mem_singleton_self best
  | cons j js ih =>
      rw [scan, List.foldl_cons]
      split_ifs
      · exact List.mem_cons_of_mem _ (ih j)
      · rcases List.mem_cons.mp (ih best) with heq | hmem
        · exact List.mem_cons.mpr (Or.inl heq)
        · exact List.mem_cons_of_mem _ (List.mem_cons_of_mem _ hmem)

theorem le_bestFrom (xs : Fin n → α) (i : Fin n) : i ≤ bestFrom better xs i := by
  rcases List.mem_cons.mp (scan_mem better xs i _) with heq | hmem
  · exact heq.ge
  · have hlt := (List.mem_filter.mp hmem).2
    exact (of_decide_eq_true hlt).le

end Loops

section Keys

variable [LinearOrder κ] {better : α → α → Bool} {key : α → κ}

/-- The better of two entries is the one with the smaller key. -/
def Follows (better : α → α → Bool) (key : α → κ) : Prop :=
  ∀ a b, better a b = true ↔ key a < key b

theorem Follows.scan_le (h : Follows better key) (xs : Fin n → α) (best : Fin n)
    (js : List (Fin n)) : ∀ j ∈ best :: js, key (xs (scan better xs best js)) ≤ key (xs j) := by
  induction js generalizing best with
  | nil =>
      intro j hj
      rw [List.mem_singleton.mp hj]
      exact le_rfl
  | cons k js ih =>
      rw [scan, List.foldl_cons]
      intro j hj
      split_ifs with hbetter
      · have hk := ih k k List.mem_cons_self
        rcases List.mem_cons.mp hj with rfl | hj
        · exact hk.trans ((h _ _).mp hbetter).le
        · exact ih k j hj
      · have hb := ih best best List.mem_cons_self
        rcases List.mem_cons.mp hj with rfl | hj
        · exact hb
        · rcases List.mem_cons.mp hj with rfl | hj
          · exact hb.trans (not_lt.mp fun hlt ↦ hbetter ((h _ _).mpr hlt))
          · exact ih best j (List.mem_cons_of_mem _ hj)

theorem Follows.bestFrom_le (h : Follows better key) (xs : Fin n → α) {i j : Fin n}
    (hij : i ≤ j) : key (xs (bestFrom better xs i)) ≤ key (xs j) := by
  apply h.scan_le xs i _ j
  rcases hij.eq_or_lt with rfl | hlt
  · exact List.mem_cons_self
  · exact List.mem_cons_of_mem _
      (List.mem_filter.mpr ⟨List.mem_finRange j, decide_eq_true hlt⟩)

/-- The entry at `i` stands before no better one. -/
def Settled (key : α → κ) (xs : Fin n → α) (i : Fin n) : Prop :=
  ∀ j, i ≤ j → key (xs i) ≤ key (xs j)

theorem swap_ge {i k m j : Fin n} (hk : i ≤ k) (hm : i ≤ m) (hj : i ≤ j) :
    i ≤ Equiv.swap k m j := by
  rw [Equiv.swap_apply_def]
  split_ifs
  · exact hm
  · exact hk
  · exact hj

/-- A round settles its position and leaves the positions before it settled. -/
theorem Follows.settled_pass (h : Follows better key) {xs : Fin n → α} {i k : Fin n}
    (hi : i < k → Settled key xs i) (hik : i ≤ k) : Settled key (pass better xs k) i := by
  intro j hj
  have hbest := le_bestFrom better xs k
  rcases hik.eq_or_lt with rfl | hlt
  · rw [pass, Function.comp_apply, Equiv.swap_apply_left, Function.comp_apply]
    exact h.bestFrom_le xs (swap_ge le_rfl hbest hj)
  · have hfix : Equiv.swap k (bestFrom better xs k) i = i :=
      Equiv.swap_apply_of_ne_of_ne hlt.ne (hlt.trans_le hbest).ne
    rw [pass, Function.comp_apply, hfix, Function.comp_apply]
    exact hi hlt _ (swap_ge hlt.le (hlt.le.trans hbest) hj)

theorem Follows.settled_foldl (h : Follows better key) {done todo : List (Fin n)}
    (hsorted : (done ++ todo).Pairwise (· < ·)) {xs : Fin n → α}
    (hdone : ∀ i ∈ done, Settled key xs i) :
    ∀ i ∈ done ++ todo, Settled key (todo.foldl (pass better) xs) i := by
  induction todo generalizing done xs with
  | nil =>
      intro i hi
      rw [List.append_nil] at hi
      exact hdone i hi
  | cons k todo ih =>
      rw [List.append_cons] at hsorted ⊢
      refine ih hsorted fun i hi ↦ ?_
      rcases List.mem_append.mp hi with hi | hi
      · have hlt : i < k := by
          have hfront := (List.pairwise_append.mp (List.pairwise_append.mp hsorted).1).2.2
          exact hfront i hi k (List.mem_singleton_self k)
        exact h.settled_pass (fun _ ↦ hdone i hi) hlt.le
      · rw [List.mem_singleton.mp hi]
        exact h.settled_pass (fun hlt ↦ absurd hlt (lt_irrefl k)) le_rfl

theorem Follows.sort_pairwise (h : Follows better key) (xs : Fin n → α) :
    (List.ofFn (sort better xs)).Pairwise fun a b ↦ key a ≤ key b := by
  rw [List.pairwise_ofFn]
  intro i j hij
  have hstart : ∀ i ∈ ([] : List (Fin n)), Settled key xs i := fun _ hi ↦ absurd hi List.not_mem_nil
  exact h.settled_foldl (List.pairwise_lt_finRange n) hstart i (List.mem_finRange i) j hij.le

end Keys

end SelectionSort
