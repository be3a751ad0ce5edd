import Mathlib

/-!
# Open addressing

A table of slots with keys, and the way in which a slot is found when each key
has an order in which the slots are tried.  The search for a key ends at the
first slot that was never used; a slot whose key was taken out is marked and can
be filled again.
-/

namespace Keyed

variable {ι K V : Type*}

/-- No key is in two slots. -/
def Once (key : ι → Option K) : Prop := ∀ i j k, key i = some k → key j = some k → i = j

/-- A slot with the key `k` has the value `v`. -/
def Maps (key : ι → Option K) (val : ι → V) (k : K) (v : V) : Prop :=
  ∃ i, key i = some k ∧ val i = v

variable {key key' : ι → Option K} {val : ι → V} {i : ι} {k k' : K} {v v' : V}

theorem Once.mono (h : Once key) (hsub : ∀ i k, key' i = some k → key i = some k) : Once key' :=
  fun i j k hi hj ↦ h i j k (hsub i k hi) (hsub j k hj)

variable [DecidableEq ι]

theorem put_cases {j : ι} (hold : ∀ j, key j = some k → j = i)
    (h : Function.update key i (some k) j = some k') :
    j = i ∧ k' = k ∨ j ≠ i ∧ k' ≠ k ∧ key j = some k' := by
  by_cases hji : j = i
  · subst hji
    rw [Function.update_self] at h
    cases h
    exact .inl ⟨rfl, rfl⟩
  · rw [Function.update_of_ne hji] at h
    refine .inr ⟨hji, ?_, h⟩
    rintro rfl
    exact hji (hold j h)

theorem Once.put (h : Once key) (hold : ∀ j, key j = some k → j = i) :
    Once (Function.update key i (some k)) := by
  intro j j' k' hj hj'
  rcases put_cases hold hj with ⟨rfl, rfl⟩ | ⟨-, hne, hj⟩
  · rcases put_cases hold hj' with ⟨rfl, -⟩ | ⟨-, hne, -⟩
    · rfl
    · exact absurd rfl hne
  · rcases put_cases hold hj' with ⟨-, rfl⟩ | ⟨-, -, hj'⟩
    · exact absurd rfl hne
    · exact h j j' k' hj hj'

/-- A value is put into the slot of its key, or into a slot without a key. -/
theorem maps_put [DecidableEq K] (hold : ∀ j, key j = some k → j = i)
    (hfree : ∀ k', key i = some k' → k' = k) :
    Maps (Function.update key i (some k)) (Function.update val i v) k' v' ↔
      if k' = k then v' = v else Maps key val k' v' := by
  constructor
  · rintro ⟨j, hj, rfl⟩
    rcases put_cases hold hj with ⟨rfl, rfl⟩ | ⟨hji, hne, hj⟩
    · rw [if_pos rfl, Function.update_self]
    · rw [if_neg hne, Function.update_of_ne hji]
      exact ⟨j, hj, rfl⟩
  · split_ifs with hk
    · rintro rfl
      exact ⟨i, by rw [Function.update_self, hk], Function.update_self _ _ _⟩
    · rintro ⟨j, hj, rfl⟩
      have hji : j ≠ i := by
        rintro rfl
        exact hk (hfree k' hj)
      exact ⟨j, by rwa [Function.update_of_ne hji], Function.update_of_ne hji _ _⟩

omit [DecidableEq ι] in
/-- As many slots as things that have a key each: a thing whose key is in no slot
leaves a slot without a key. -/
theorem exists_free {T : Type*} [Fintype ι] [Fintype T] (hcard : Fintype.card ι = Fintype.card T)
    {keyOf : T → K} (honce : Once key) (hheld : ∀ i k, key i = some k → ∃ t, keyOf t = k)
    {t₀ : T} (hnot : ∀ i, key i ≠ some (keyOf t₀)) : ∃ i, key i = none := by
  by_contra hfull
  have hused : ∀ i, ∃ t, key i = some (keyOf t) := by
    intro i
    obtain ⟨k, hk⟩ := Option.ne_none_iff_exists'.mp fun hi ↦ hfull ⟨i, hi⟩
    obtain ⟨t, rfl⟩ := hheld i k hk
    exact ⟨t, hk⟩
  choose g hg using hused
  have hinj : Function.Injective g := by
    intro i j hij
    exact honce i j (keyOf (g i)) (hg i) (hij ▸ hg j)
  obtain ⟨i, rfl⟩ := ((Fintype.bijective_iff_injective_and_card g).mpr ⟨hinj, hcard⟩).2 t₀
  exact hnot i (hg i)

end Keyed

namespace Probing

inductive Cell (K : Type*) where
  | empty
  | used (k : K)
  | deleted

def Cell.key {K : Type*} : Cell K → Option K
  | .used k => some k
  | _ => none

@[simp] theorem Cell.key_eq_some {K : Type*} {c : Cell K} {k : K} : c.key = some k ↔ c = .used k := by
  cases c <;> simp [key]

@[simp] theorem Cell.key_eq_none {K : Type*} {c : Cell K} : c.key = none ↔ ∀ k, c ≠ .used k := by
  cases c <;> simp [key]

variable {ι K : Type*} [DecidableEq K]

/-- The cell that holds the key, or else the one to fill. -/
def seek (cells : ι → Cell K) (k : K) (free : Option ι) : List ι → ι ⊕ Option ι
  | [] => .inr free
  | i :: is =>
      match cells i with
      | .used k' => if k' = k then .inl i else seek cells k free is
      | .empty => .inr (some (free.getD i))
      | .deleted => seek cells k (free.or (some i)) is

/-- The search for a key that is in the table gets to its cell. -/
def Reached (probe : K → List ι) (cells : ι → Cell K) : Prop :=
  ∀ i k, cells i = .used k → ∃ pre post, probe k = pre ++ i :: post ∧ ∀ j ∈ pre, cells j ≠ .empty

variable {cells cells' : ι → Cell K} {probe : K → List ι} {k : K} {free : Option ι} {i : ι}
  {is : List ι}

theorem seek_inl (h : seek cells k free is = .inl i) : cells i = .used k := by
  induction is generalizing free with
  | nil => cases h
  | cons j is ih =>
      unfold seek at h
      split at h
      · next k' hj =>
          split_ifs at h with hk
          · cases h
            rw [hj, hk]
          · exact ih h
      · cases h
      · exact ih h

/-- A search without success has passed all cells before the first empty one. -/
theorem not_used_of_seek {o : Option ι} {pre post : List ι}
    (h : seek cells k free (pre ++ i :: post) = .inr o) (hpre : ∀ j ∈ pre, cells j ≠ .empty) :
    cells i ≠ .used k := by
  induction pre generalizing free with
  | nil =>
      intro hi
      rw [List.nil_append, seek, hi] at h
      simp at h
  | cons j pre ih =>
      have hpre' : ∀ j ∈ pre, cells j ≠ .empty := fun j hj ↦ hpre j (List.mem_cons_of_mem _ hj)
      rw [List.cons_append] at h
      unfold seek at h
      split at h
      · split_ifs at h
        exact ih h hpre'
      · next hj => exact absurd hj (hpre j List.mem_cons_self)
      · exact ih h hpre'

theorem Reached.not_used (h : Reached probe cells) {o : Option ι}
    (hseek : seek cells k none (probe k) = .inr o) (i : ι) : cells i ≠ .used k := by
  intro hi
  obtain ⟨pre, post, hprobe, hpre⟩ := h i k hi
  rw [hprobe] at hseek
  exact not_used_of_seek hseek hpre hi

/-- The cell to fill is the one given, or one that the search gets to. -/
theorem seek_some (h : seek cells k free is = .inr (some i)) :
    free = some i ∨ (∀ k', cells i ≠ .used k') ∧
      ∃ pre post, is = pre ++ i :: post ∧ ∀ j ∈ pre, cells j ≠ .empty := by
  induction is generalizing free with
  | nil => exact .inl (Sum.inr.inj h)
  | cons j is ih =>
      have hlater : (free = some i ∨ (∀ k', cells i ≠ .used k') ∧
          ∃ pre post, is = pre ++ i :: post ∧ ∀ j ∈ pre, cells j ≠ .empty) → cells j ≠ .empty →
          free = some i ∨ (∀ k', cells i ≠ .used k') ∧
            ∃ pre post, j :: is = pre ++ i :: post ∧ ∀ j ∈ pre, cells j ≠ .empty := by
        rintro (hfree | ⟨hi, pre, post, rfl, hpre⟩) hj
        · exact .inl hfree
        · refine .inr ⟨hi, j :: pre, post, rfl, ?_⟩
          simpa using ⟨hj, hpre⟩
      unfold seek at h
      split at h
      · next hj =>
          split_ifs at h
          exact hlater (ih h) (by simp [hj])
      · next hj =>
          cases free with
          | some f => exact .inl (Sum.inr.inj h)
          | none =>
              cases h
              exact .inr ⟨by simp [hj], [], is, rfl, by simp⟩
      · next hj =>
          cases free with
          | some f => exact hlater (ih h) (by simp [hj])
          | none =>
              rcases ih h with hfree | ⟨hi, pre, post, rfl, hpre⟩
              · cases hfree
                exact .inr ⟨by simp [hj], [], is, rfl, by simp⟩
              · exact .inr ⟨hi, j :: pre, post, rfl, by simpa [hj] using hpre⟩

theorem seek_ne_none {f : ι} : seek cells k (some f) is ≠ .inr none := by
  induction is generalizing f with
  | nil => simp [seek]
  | cons i is ih =>
      unfold seek
      split
      · split_ifs
        · simp
        · exact ih
      · simp
      · exact ih

/-- There is no cell to fill only where all are used. -/
theorem used_of_seek_none (h : seek cells k none is = .inr none) :
    ∀ i ∈ is, ∃ k', cells i = .used k' := by
  induction is with
  | nil => simp
  | cons j is ih =>
      unfold seek at h
      split at h
      · next k' hj =>
          split_ifs at h
          exact List.forall_mem_cons.mpr ⟨⟨k', hj⟩, ih h⟩
      · cases h
      · exact absurd h seek_ne_none

omit [DecidableEq K] in
/-- Keys may be taken out, but no cell becomes empty. -/
theorem Reached.mono (h : Reached probe cells)
    (hused : ∀ i k, cells' i = .used k → cells i = .used k)
    (hempty : ∀ i, cells' i = .empty → cells i = .empty) : Reached probe cells' := by
  intro i k hi
  obtain ⟨pre, post, hprobe, hpre⟩ := h i k (hused i k hi)
  exact ⟨pre, post, hprobe, fun j hj hc ↦ hpre j hj (hempty j hc)⟩

omit [DecidableEq K] in
/-- A key is put into a cell that its search gets to. -/
theorem Reached.fill [DecidableEq ι] (h : Reached probe cells) {pre post : List ι}
    (hprobe : probe k = pre ++ i :: post) (hpre : ∀ j ∈ pre, cells j ≠ .empty) :
    Reached probe (Function.update cells i (.used k)) := by
  have hkept : ∀ j, cells j ≠ .empty → Function.update cells i (.used k) j ≠ .empty := by
    intro j hj
    by_cases hji : j = i
    · subst hji
      simp
    · rwa [Function.update_of_ne hji]
  intro j k' hj
  by_cases hji : j = i
  · subst hji
    rw [Function.update_self] at hj
    cases hj
    exact ⟨pre, post, hprobe, fun j hj ↦ hkept j (hpre j hj)⟩
  · rw [Function.update_of_ne hji] at hj
    obtain ⟨pre', post', hprobe', hpre'⟩ := h j k' hj
    exact ⟨pre', post', hprobe', fun j hj ↦ hkept j (hpre' j hj)⟩

end Probing
