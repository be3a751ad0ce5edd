import Mathlib

/-!
# Intrusive singly linked lists

Lists threaded through an array of slots: a head link and one `next` link per
slot, `none` ending the list.  Several lists may share one `next` array, so the
operations come with a statement of which links they leave alone.  The loops
are given a step bound and return `none` when it runs out, which on a chain of
distinct slots never happens.
-/

namespace IntrusiveList

variable {ι : Type*}

/-- `l` is the list of slots reached from `head` along `next`. -/
def Chain (next : ι → Option ι) : Option ι → List ι → Prop
  | head, [] => head = none
  | head, i :: l => head = some i ∧ Chain next (next i) l

@[simp] theorem chain_nil (next : ι → Option ι) (head : Option ι) :
    Chain next head [] ↔ head = none := Iff.rfl

@[simp] theorem chain_cons (next : ι → Option ι) (head : Option ι) (i : ι) (l : List ι) :
    Chain next head (i :: l) ↔ head = some i ∧ Chain next (next i) l := Iff.rfl

/-- A chain only depends on the links of its own slots. -/
theorem Chain.congr {next next' : ι → Option ι} {head : Option ι} {l : List ι}
    (h : Chain next head l) (hn : ∀ i ∈ l, next' i = next i) : Chain next' head l := by
  induction l generalizing head with
  | nil => exact h
  | cons i l ih =>
      refine ⟨h.1, ?_⟩
      rw [hn i List.mem_cons_self]
      exact ih h.2 fun j hj ↦ hn j (List.mem_cons_of_mem i hj)

/-- `for (i = head; i >= 0; i = next[i])`, the slots in the order visited. -/
def walk (next : ι → Option ι) : ℕ → Option ι → Option (List ι)
  | _, none => some []
  | 0, some _ => none
  | k + 1, some i => (walk next k (next i)).map (i :: ·)

theorem Chain.walk_eq {next : ι → Option ι} {head : Option ι} {l : List ι}
    (h : Chain next head l) {k : ℕ} (hk : l.length ≤ k) : walk next k head = some l := by
  induction l generalizing head k with
  | nil =>
      obtain rfl : head = none := h
      cases k <;> rfl
  | cons i l ih =>
      obtain ⟨rfl, hl⟩ := h
      cases k with
      | zero => simp at hk
      | succ k => simp [walk, ih hl (by simpa using hk)]

/-- `j` is behind `i` along the links. -/
def Behind (next : ι → Option ι) : ι → ι → Prop := Relation.TransGen fun i j ↦ next i = some j

theorem Chain.suffix {next : ι → Option ι} {head : Option ι} {front back : List ι} {j : ι}
    (h : Chain next head (front ++ j :: back)) : Chain next (next j) back := by
  induction front generalizing head with
  | nil => exact h.2
  | cons k front ih => exact ih h.2

theorem Chain.mem_of_link {next : ι → Option ι} {head : Option ι} {l : List ι}
    (h : Chain next head l) {j : ι} (hj : head = some j) : j ∈ l := by
  cases l with
  | nil => cases hj.symm.trans h
  | cons k l =>
      obtain rfl := Option.some.inj (hj.symm.trans h.1)
      exact List.mem_cons_self

theorem Chain.mem_of_behind {next : ι → Option ι} {i j : ι} {l : List ι} (h : Chain next (next i) l)
    (hij : Behind next i j) : j ∈ l := by
  induction hij with
  | single hij => exact h.mem_of_link hij
  | tail _ hjk ih =>
      obtain ⟨front, back, rfl⟩ := List.append_of_mem ih
      have hback := h.suffix.mem_of_link hjk
      exact List.mem_append_right front (List.mem_cons_of_mem _ hback)

/-- On a chain of distinct slots each is behind those before it, and before those behind it. -/
theorem Chain.pairwise_behind {next : ι → Option ι} {head : Option ι} {l : List ι}
    (h : Chain next head l) (hnd : l.Nodup) :
    l.Pairwise fun i j ↦ Behind next i j ∧ ¬ Behind next j i := by
  have hbehind : ∀ {l : List ι} {i : ι}, Chain next (next i) l → ∀ j ∈ l, Behind next i j := by
    intro l
    induction l with
    | nil => exact fun _ _ hj ↦ absurd hj List.not_mem_nil
    | cons k l ih =>
        intro i hl j hj
        have hik : Behind next i k := .single hl.1
        rcases List.mem_cons.mp hj with rfl | hj
        · exact hik
        · exact hik.trans (ih hl.2 j hj)
  induction l generalizing head with
  | nil => exact List.Pairwise.nil
  | cons i l ih =>
      obtain ⟨hi, hnd⟩ := List.nodup_cons.mp hnd
      refine List.pairwise_cons.mpr ⟨fun j hj ↦ ⟨hbehind h.2 j hj, fun hji ↦ ?_⟩, ih h.2 hnd⟩
      obtain ⟨front, back, rfl⟩ := List.append_of_mem hj
      have hmem : i ∈ back := h.2.suffix.mem_of_behind hji
      exact hi (List.mem_append_right front (List.mem_cons_of_mem j hmem))

/-- A chain of distinct slots does not come back. -/
theorem Chain.not_behind_self {next : ι → Option ι} {head : Option ι} {l : List ι}
    (h : Chain next head l) (hnd : l.Nodup) {i : ι} (hi : i ∈ l) : ¬ Behind next i i := by
  intro hii
  obtain ⟨front, back, rfl⟩ := List.append_of_mem hi
  have hmem : i ∈ back := h.suffix.mem_of_behind hii
  exact (List.nodup_cons.mp hnd.of_append_right).1 hmem

variable [DecidableEq ι]

/-- Link `slot` in front of the list. -/
theorem Chain.insert {next : ι → Option ι} {head : Option ι} {l : List ι}
    (h : Chain next head l) {slot : ι} (hs : slot ∉ l) :
    Chain (Function.update next slot head) (some slot) (slot :: l) := by
  refine ⟨rfl, ?_⟩
  rw [Function.update_self]
  exact h.congr fun i hi ↦ Function.update_of_ne (ne_of_mem_of_not_mem hi hs) _ _

/-- The removal loop once its link pointer is `&next[pred]`. -/
def unlinkAfter (next : ι → Option ι) (slot : ι) : ℕ → ι → Option (ι → Option ι)
  | 0, _ => none
  | k + 1, pred =>
      match next pred with
      | none => some next
      | some i =>
          if i = slot then some (Function.update next pred (next slot))
          else unlinkAfter next slot k i

/-- The removal loop, its link pointer starting at the head. -/
def unlink (next : ι → Option ι) (head : Option ι) (slot : ι) (k : ℕ) :
    Option (Option ι × (ι → Option ι)) :=
  match head with
  | none => some (none, next)
  | some i =>
      if i = slot then some (next slot, next)
      else (unlinkAfter next slot k i).map fun next' ↦ (some i, next')

theorem Chain.unlinkAfter {next : ι → Option ι} {pred : ι} {l : List ι}
    (h : Chain next (next pred) l) (slot : ι) (hnd : (pred :: l).Nodup) {k : ℕ} (hk : l.length < k) :
    ∃ next', unlinkAfter next slot k pred = some next' ∧
      Chain next' (next' pred) (l.erase slot) ∧
      ∀ i ∉ pred :: l, next' i = next i := by
  induction l generalizing pred k with
  | nil =>
      obtain ⟨k, rfl⟩ := Nat.exists_eq_add_of_lt hk
      have hp : next pred = none := h
      refine ⟨next, by simp [IntrusiveList.unlinkAfter, hp], by simpa using hp, fun _ _ ↦ rfl⟩
  | cons i l ih =>
      obtain ⟨hp, hl⟩ := h
      cases k with
      | zero => simp at hk
      | succ k =>
          by_cases hi : i = slot
          · subst hi
            refine ⟨Function.update next pred (next i),
              by simp [IntrusiveList.unlinkAfter, hp], ?_, fun j hj ↦ ?_⟩
            · rw [List.erase_cons_head, Function.update_self]
              refine hl.congr fun j hj ↦ Function.update_of_ne ?_ _ _
              rintro rfl
              simp [hj] at hnd
            · exact Function.update_of_ne (ne_of_mem_of_not_mem List.mem_cons_self hj).symm _ _
          · have hnd' : (i :: l).Nodup := (List.nodup_cons.mp hnd).2
            obtain ⟨next', hrun, hchain, hframe⟩ := ih hl hnd' (by simpa using hk)
            have hpred : pred ∉ i :: l := (List.nodup_cons.mp hnd).1
            refine ⟨next', by simp [IntrusiveList.unlinkAfter, hp, hi, hrun], ?_, fun j hj ↦ ?_⟩
            · rw [List.erase_cons_tail (by simpa using hi)]
              exact ⟨(hframe pred hpred).trans hp, hchain⟩
            · exact hframe j fun hmem ↦ hj (List.mem_cons_of_mem pred hmem)

/-- On a chain of distinct slots the removal loop ends, takes out `slot` and
changes no link outside the chain. -/
theorem Chain.unlink {next : ι → Option ι} {head : Option ι} {l : List ι}
    (h : Chain next head l) (hnd : l.Nodup) (slot : ι) {k : ℕ} (hk : l.length ≤ k) :
    ∃ head' next', unlink next head slot k = some (head', next') ∧
      Chain next' head' (l.erase slot) ∧ ∀ i ∉ l, next' i = next i := by
  cases l with
  | nil =>
      obtain rfl : head = none := h
      exact ⟨none, next, rfl, by simp, fun _ _ ↦ rfl⟩
  | cons i l =>
      obtain ⟨rfl, hl⟩ := h
      by_cases hi : i = slot
      · subst hi
        exact ⟨next i, next, by simp [IntrusiveList.unlink], by simpa using hl, fun _ _ ↦ rfl⟩
      · obtain ⟨next', hrun, hchain, hframe⟩ :=
          hl.unlinkAfter slot hnd (k := k) (by simpa using hk)
        refine ⟨some i, next', by simp [IntrusiveList.unlink, hi, hrun], ?_, hframe⟩
        rw [List.erase_cons_tail (by simpa using hi)]
        exact ⟨rfl, hchain⟩

end IntrusiveList
