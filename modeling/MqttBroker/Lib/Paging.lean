import Mathlib

/-!
# Reading an array in pages

A reader keeps a cursor into an array and takes, page by page, the indices that
satisfy a predicate, at most so many at a time.  The predicate may be another one
at every page.
-/

namespace Paging

variable {n : ℕ}

/-- The loop over the indices from the cursor on, with room for so many more. -/
def scan (p : Fin n → Bool) : ℕ → ℕ → List (Fin n) → List (Fin n) × ℕ
  | _, cursor, [] => ([], cursor)
  | 0, cursor, _ :: _ => ([], cursor)
  | room + 1, _, i :: rest =>
      if p i then
        let r := scan p room (i + 1) rest
        (i :: r.1, r.2)
      else scan p (room + 1) (i + 1) rest

/-- One page: the indices taken, and where the next page begins. -/
def page (p : Fin n → Bool) (room cursor : ℕ) : List (Fin n) × ℕ :=
  scan p room cursor ((List.finRange n).drop cursor)

/-- The page `r` that was read from `cursor` on: all that satisfies `p` up to the new cursor,
which is at the end of the array unless the page is full. -/
structure IsPage (p : Fin n → Bool) (room cursor : ℕ) (r : List (Fin n) × ℕ) : Prop where
  sorted : r.1.Pairwise (· < ·)
  mem : ∀ i, i ∈ r.1 ↔ p i = true ∧ cursor ≤ i ∧ i < r.2
  ge : cursor ≤ r.2
  le : r.2 ≤ n
  full : r.1.length = room ∨ r.2 = n
  progress : 0 < room → cursor < n → cursor < r.2

variable {p : Fin n → Bool} {room cursor : ℕ}

theorem IsPage.skip {i : Fin n} {r : List (Fin n) × ℕ} (hi : p i = false)
    (h : IsPage p room (i + 1) r) : IsPage p room i r where
  sorted := h.sorted
  mem j := by
    rw [h.mem j]
    refine and_congr_right fun hj ↦ and_congr_left fun _ ↦ ?_
    have hne : j ≠ i := by
      rintro rfl
      rw [hi] at hj
      cases hj
    have hval : j.val ≠ i.val := Fin.val_ne_of_ne hne
    omega
  ge := (Nat.le_succ _).trans h.ge
  le := h.le
  full := h.full
  progress _ _ := h.ge

theorem IsPage.take {i : Fin n} {r : List (Fin n) × ℕ} (hi : p i = true)
    (h : IsPage p room (i + 1) r) : IsPage p (room + 1) i (i :: r.1, r.2) where
  sorted := by
    refine List.pairwise_cons.mpr ⟨fun j hj ↦ ?_, h.sorted⟩
    exact Fin.lt_def.mpr ((h.mem j).mp hj).2.1
  mem j := by
    have hlt := h.ge
    rw [List.mem_cons, h.mem j]
    constructor
    · rintro (rfl | ⟨hj, hge, hle⟩)
      · exact ⟨hi, le_rfl, hlt⟩
      · exact ⟨hj, (Nat.le_succ _).trans hge, hle⟩
    · rintro ⟨hj, hge, hle⟩
      rcases hge.eq_or_lt with heq | hgt
      · exact Or.inl (Fin.ext heq.symm)
      · exact Or.inr ⟨hj, hgt, hle⟩
  ge := (Nat.le_succ _).trans h.ge
  le := h.le
  full := h.full.imp_left fun hlen ↦ by rw [List.length_cons, hlen]
  progress _ _ := h.ge

theorem isPage_page (h : cursor ≤ n) : IsPage p room cursor (page p room cursor) := by
  unfold page
  generalize hrest : (List.finRange n).drop cursor = rest
  induction rest generalizing room cursor with
  | nil =>
      have hn : cursor = n := by
        have hlen := congrArg List.length hrest
        simp only [List.length_drop, List.length_finRange, List.length_nil] at hlen
        omega
      subst hn
      refine ⟨List.Pairwise.nil, fun i ↦ ?_, ?_, ?_, Or.inr ?_, fun _ h ↦ absurd h (lt_irrefl _)⟩
      · simp only [scan, List.not_mem_nil, false_iff]
        rintro ⟨-, hge, hlt⟩
        exact absurd hge (not_le.mpr hlt)
      all_goals simp [scan]
  | cons i rest ih =>
      have hlt : cursor < n := by
        by_contra hge
        rw [List.drop_eq_nil_of_le (by simpa using hge)] at hrest
        cases hrest
      have hcons :=
        List.drop_eq_getElem_cons (l := List.finRange n) (i := cursor) (by simpa using hlt)
      rw [hrest] at hcons
      obtain ⟨hi, hrest⟩ := List.cons.inj hcons
      obtain rfl : i.val = cursor := by
        rw [hi]
        simp
      have hnext : ∀ room, IsPage p room (i + 1) (scan p room (i + 1) rest) :=
        fun room ↦ ih i.isLt hrest.symm
      cases room with
      | zero =>
          rw [scan]
          refine ⟨List.Pairwise.nil, fun j ↦ ?_, le_rfl, h, Or.inl rfl,
            fun h _ ↦ absurd h (lt_irrefl _)⟩
          simp only [List.not_mem_nil, false_iff]
          rintro ⟨-, hge, hlt⟩
          exact absurd hge (not_le.mpr hlt)
      | succ room =>
          rw [scan]
          split_ifs with hp
          · exact (hnext room).take hp
          · exact (hnext (room + 1)).skip (by simpa using hp)

theorem IsPage.next_eq_of_nil {r : List (Fin n) × ℕ} (h : IsPage p room cursor r)
    (hroom : 0 < room) (hnil : r.1 = []) : r.2 = n := by
  rcases h.full with hfull | hend
  · rw [hnil] at hfull
    exact absurd hfull hroom.ne
  · exact hend

/-- Behind an empty page there is nothing. -/
theorem page_end (p : Fin n → Bool) (room : ℕ) : page p room n = ([], n) := by
  unfold page
  rw [List.drop_eq_nil_of_le (by simp)]
  cases room <;> rfl

/-! ## Pages one after the other -/

/-- What was read, page by page: the predicate at its time, the room, and the page. -/
inductive Read : ℕ → List ((Fin n → Bool) × ℕ × List (Fin n)) → ℕ → Prop where
  | nil {cursor : ℕ} (h : cursor ≤ n) : Read cursor [] cursor
  | cons {cursor last : ℕ} {p : Fin n → Bool} {room : ℕ}
      {pages : List ((Fin n → Bool) × ℕ × List (Fin n))} {r : List (Fin n) × ℕ}
      (hpage : IsPage p room cursor r) (h : Read r.2 pages last) :
      Read cursor ((p, room, r.1) :: pages) last

variable {last : ℕ} {pages : List ((Fin n → Bool) × ℕ × List (Fin n))}

/-- The indices read, in their order. -/
def taken (pages : List ((Fin n → Bool) × ℕ × List (Fin n))) : List (Fin n) :=
  pages.flatMap fun x ↦ x.2.2

theorem Read.bounds (h : Read cursor pages last) : cursor ≤ last ∧ last ≤ n := by
  induction h with
  | nil h => exact ⟨le_rfl, h⟩
  | cons hpage _ ih => exact ⟨hpage.ge.trans ih.1, ih.2⟩

theorem Read.mem_taken (h : Read cursor pages last) {i : Fin n} (hi : i ∈ taken pages) :
    cursor ≤ i ∧ i < last := by
  induction h with
  | nil => simp [taken] at hi
  | cons hpage hread ih =>
      rw [taken, List.flatMap_cons, List.mem_append] at hi
      rcases hi with hi | hi
      · obtain ⟨-, hge, hlt⟩ := (hpage.mem i).mp hi
        exact ⟨hge, hlt.trans_le hread.bounds.1⟩
      · exact ⟨hpage.ge.trans (ih hi).1, (ih hi).2⟩

/-- The pages go through the array from the front to the back, so nothing is read twice. -/
theorem Read.sorted (h : Read cursor pages last) : (taken pages).Pairwise (· < ·) := by
  induction h with
  | nil => exact List.Pairwise.nil
  | @cons cursor last p room pages r hpage hread ih =>
      rw [taken, List.flatMap_cons]
      refine List.pairwise_append.mpr ⟨hpage.sorted, ih, fun i hi j hj ↦ ?_⟩
      have hlt := ((hpage.mem i).mp hi).2.2
      have hge := (hread.mem_taken hj).1
      exact Fin.lt_def.mpr (hlt.trans_le hge)

theorem Read.satisfies (h : Read cursor pages last) {p : Fin n → Bool} (hp : ∀ x ∈ pages, x.1 = p)
    {i : Fin n} (hi : i ∈ taken pages) : p i = true := by
  induction h with
  | nil => simp [taken] at hi
  | cons hpage hread ih =>
      obtain rfl := hp _ List.mem_cons_self
      rw [taken, List.flatMap_cons, List.mem_append] at hi
      rcases hi with hi | hi
      · exact ((hpage.mem i).mp hi).1
      · exact ih (fun x hx ↦ hp x (List.mem_cons_of_mem _ hx)) hi

/-- What satisfies every page's predicate is not passed over. -/
theorem Read.mem_of_always (h : Read cursor pages last) {i : Fin n} (hge : cursor ≤ i)
    (hlt : i < last) (hi : ∀ x ∈ pages, x.1 i = true) : i ∈ taken pages := by
  induction h with
  | nil => exact absurd hge (not_le.mpr hlt)
  | @cons cursor last p room pages r hpage hread ih =>
      rw [taken, List.flatMap_cons, List.mem_append]
      by_cases hnext : i < r.2
      · exact Or.inl ((hpage.mem i).mpr ⟨hi _ List.mem_cons_self, hge, hnext⟩)
      · exact Or.inr (ih (not_lt.mp hnext) hlt fun x hx ↦ hi x (List.mem_cons_of_mem _ hx))

/-- With one predicate all along, the pages are what satisfies it. -/
theorem Read.taken_eq (h : Read 0 pages n) {p : Fin n → Bool} (hp : ∀ x ∈ pages, x.1 = p) :
    taken pages = (List.finRange n).filter p := by
  have hmem : ∀ i, i ∈ taken pages ↔ i ∈ (List.finRange n).filter p := by
    intro i
    rw [List.mem_filter, and_iff_right (List.mem_finRange i)]
    refine ⟨fun hi ↦ h.satisfies hp hi, fun hi ↦ ?_⟩
    exact h.mem_of_always (Nat.zero_le _) i.isLt fun x hx ↦ by rw [hp x hx, hi]
  have hsorted : ((List.finRange n).filter p).Pairwise (· < ·) :=
    (List.pairwise_lt_finRange n).filter p
  have hperm : (taken pages).Perm ((List.finRange n).filter p) :=
    (List.perm_ext_iff_of_nodup (h.sorted.imp fun hlt ↦ ne_of_lt hlt)
      (hsorted.imp fun hlt ↦ ne_of_lt hlt)).mpr hmem
  exact hperm.eq_of_pairwise' h.sorted hsorted

end Paging
