import MqttBroker.Lib.Observer

/-!
# Writers of one stream

Several writers put items onto a stream, each in as many pieces as the transport takes it.
As long as nobody puts anything while another writer is in the middle of an item, the stream
consists of whole items, up to a last one that is not complete.
-/

namespace Writers

variable {ι α : Type*}

/-- An item, and how much of it has been put onto the stream. -/
structure Pending (α : Type*) where
  item : List α
  done : ℕ

/-- Something of the item is on the stream, and something is not. -/
def Pending.Midway (p : Pending α) : Prop := 0 < p.done ∧ p.done < p.item.length

structure State (ι α : Type*) where
  stream : List α
  pending : ι → Option (Pending α)

inductive Event (ι α : Type*) where
  | start (w : ι) (item : List α)
  /-- the transport takes `n` more -/
  | put (w : ι) (n : ℕ)
  | finish (w : ι)
  /-- the writer gives its item up -/
  | abort (w : ι)

/-- What an observer notes. -/
structure Notes (α : Type*) where
  /-- the items of which something was put, in this order -/
  begun : List (List α) := []
  /-- an item was given up in the middle -/
  cut : Bool := false

def init (ι α : Type*) : State ι α := ⟨[], fun _ ↦ none⟩

/-- Nobody but `w` is in the middle of an item. -/
def State.Alone (s : State ι α) (w : ι) : Prop :=
  ∀ v, v ≠ w → ∀ p, s.pending v = some p → ¬p.Midway

/-- Nobody is in the middle of an item. -/
def State.Quiet (s : State ι α) : Prop := ∀ w p, s.pending w = some p → ¬p.Midway

section

variable [DecidableEq ι]

def step (s : State ι α) : Event ι α → Option (State ι α)
  | .start w item =>
      match s.pending w with
      | none => some { s with pending := Function.update s.pending w (some ⟨item, 0⟩) }
      | some _ => none
  | .put w n =>
      match s.pending w with
      | none => none
      | some p =>
          if 0 < n ∧ p.done + n ≤ p.item.length then
            some ⟨s.stream ++ (p.item.drop p.done).take n,
              Function.update s.pending w (some { p with done := p.done + n })⟩
          else none
  | .finish w =>
      match s.pending w with
      | none => none
      | some p =>
          if p.done = p.item.length then
            some { s with pending := Function.update s.pending w none }
          else none
  | .abort w =>
      match s.pending w with
      | none => none
      | some _ => some { s with pending := Function.update s.pending w none }

def note (s : State ι α) (e : Event ι α) (n : Notes α) : Notes α :=
  match e with
  | .put w _ =>
      match s.pending w with
      | some p => if p.done = 0 then { n with begun := n.begun ++ [p.item] } else n
      | none => n
  | .abort w =>
      match s.pending w with
      | some p => { n with cut := n.cut || (0 < p.done && p.done < p.item.length) }
      | none => n
  | _ => n

def system (ι α : Type*) [DecidableEq ι] : Observer.System (State ι α) (Event ι α) (Notes α) where
  step := step
  note := note

/-- Nothing is put while another writer is in the middle of an item, or after one was given
up there. -/
def Orderly (s : State ι α) (n : Notes α) (e : Event ι α) : Prop :=
  ∀ w k, e = .put w k → n.cut = false ∧ s.Alone w

/-- The orderly runs. -/
def Run : State ι α → Notes α → Prop :=
  Observer.Reach (system ι α) Orderly (init ι α) {}

/-- The stream lacks `rest` of the items that were begun. -/
structure Whole (s : State ι α) (n : Notes α) (rest : List α) : Prop where
  fits : ∀ w p, s.pending w = some p → p.done ≤ p.item.length
  stream : s.stream ++ rest = n.begun.flatten
  midway : n.cut = false → ∀ w p, s.pending w = some p → p.Midway →
    rest = p.item.drop p.done ∧ s.Alone w
  quiet : n.cut = false → s.Quiet → rest = []

/-- Putting more of an item. -/
theorem Whole.put {s : State ι α} {n : Notes α} {rest : List α} (h : Whole s n rest) {w : ι}
    {k : ℕ} {p : Pending α} (hp : s.pending w = some p) (hcut : n.cut = false)
    (halone : s.Alone w) (hk : 0 < k) (hfits : p.done + k ≤ p.item.length) :
    Whole ⟨s.stream ++ (p.item.drop p.done).take k,
      Function.update s.pending w (some { p with done := p.done + k })⟩
      (note s (.put w k) n) (p.item.drop (p.done + k)) := by
  have hpiece : (p.item.drop p.done).take k ++ p.item.drop (p.done + k) = p.item.drop p.done := by
    rw [← List.drop_drop, List.take_append_drop]
  refine ⟨fun v q hq ↦ ?_, ?_, fun _ v q hq hmid ↦ ?_, fun _ hquiet ↦ ?_⟩
  · dsimp only at hq
    by_cases hv : v = w
    · subst hv
      rw [Function.update_self] at hq
      obtain rfl := Option.some.inj hq
      exact hfits
    · rw [Function.update_of_ne hv] at hq
      exact h.fits v q hq
  · have hbefore : s.stream ++ p.item.drop p.done = (note s (.put w k) n).begun.flatten := by
      simp only [note, hp]
      by_cases hzero : p.done = 0
      · -- the first piece: all items before it are complete
        have hrest : rest = [] := h.quiet hcut fun v q hq hmid ↦ by
          by_cases hv : v = w
          · subst hv
            obtain rfl := Option.some.inj (hp.symm.trans hq)
            exact absurd hmid.1 (by omega)
          · exact halone v hv q hq hmid
        have hstream := h.stream
        rw [hrest, List.append_nil] at hstream
        rw [if_pos hzero, hzero, List.drop_zero, hstream]
        simp
      · rw [if_neg hzero, ← h.stream,
          (h.midway hcut w p hp ⟨Nat.pos_of_ne_zero hzero, by omega⟩).1]
    calc s.stream ++ (p.item.drop p.done).take k ++ p.item.drop (p.done + k)
        = s.stream ++ p.item.drop p.done := by rw [List.append_assoc, hpiece]
      _ = (note s (.put w k) n).begun.flatten := hbefore
  · by_cases hv : v = w
    · subst hv
      dsimp only at hq
      rw [Function.update_self] at hq
      obtain rfl := Option.some.inj hq
      refine ⟨rfl, fun u hu q hq ↦ ?_⟩
      dsimp only at hq
      rw [Function.update_of_ne hu] at hq
      exact halone u hu q hq
    · dsimp only at hq
      rw [Function.update_of_ne hv] at hq
      exact absurd hmid (halone v hv q hq)
  · have hend : ¬(p.done + k < p.item.length) := fun hlt ↦
      hquiet w { p with done := p.done + k } (Function.update_self _ _ _) ⟨by simp; omega, hlt⟩
    exact List.drop_eq_nil_of_le (not_lt.mp hend)

/-- A step after which everybody but `w` is where it was. -/
theorem Whole.settle {s : State ι α} {n n' : Notes α} {rest : List α} (h : Whole s n rest) {w : ι}
    {q : Option (Pending α)} (hq : ∀ p, q = some p → p.done = 0)
    (hbegun : n'.begun = n.begun) (hold : n'.cut = false → n.cut = false)
    (hdone : n'.cut = false → ∀ p, s.pending w = some p → ¬p.Midway) :
    Whole { s with pending := Function.update s.pending w q } n' rest := by
  have hother : ∀ v p, Function.update s.pending w q v = some p → p.Midway →
      v ≠ w ∧ s.pending v = some p := by
    intro v p hp hmid
    by_cases hv : v = w
    · subst hv
      rw [Function.update_self] at hp
      have hzero := hq p hp
      exact absurd hmid.1 (by omega)
    · exact ⟨hv, by rwa [Function.update_of_ne hv] at hp⟩
  refine ⟨fun v p hp ↦ ?_, by rw [hbegun]; exact h.stream, fun hcut v p hp hmid ↦ ?_,
    fun hcut hquiet ↦ ?_⟩
  · dsimp only at hp
    by_cases hv : v = w
    · subst hv
      rw [Function.update_self] at hp
      have hzero := hq p hp
      omega
    · rw [Function.update_of_ne hv] at hp
      exact h.fits v p hp
  · obtain ⟨hrest, halone⟩ := h.midway (hold hcut) v p (hother v p hp hmid).2 hmid
    exact ⟨hrest, fun u hu p' hp' hmid' ↦ halone u hu p' (hother u p' hp' hmid').2 hmid'⟩
  · refine h.quiet (hold hcut) fun v p hp hmid ↦ ?_
    by_cases hv : v = w
    · subst hv
      exact hdone hcut p hp hmid
    · exact hquiet v p (by simpa [Function.update_of_ne hv] using hp) hmid

/-- What a step does, by cases. -/
inductive StepCase (s : State ι α) : Event ι α → State ι α → Prop where
  | start (w : ι) (item : List α) (hnone : s.pending w = none) :
      StepCase s (.start w item)
        { s with pending := Function.update s.pending w (some ⟨item, 0⟩) }
  | put (w : ι) (k : ℕ) (p : Pending α) (hp : s.pending w = some p) (hk : 0 < k)
      (hfits : p.done + k ≤ p.item.length) :
      StepCase s (.put w k) ⟨s.stream ++ (p.item.drop p.done).take k,
        Function.update s.pending w (some { p with done := p.done + k })⟩
  | finish (w : ι) (p : Pending α) (hp : s.pending w = some p) (hend : p.done = p.item.length) :
      StepCase s (.finish w) { s with pending := Function.update s.pending w none }
  | abort (w : ι) (p : Pending α) (hp : s.pending w = some p) :
      StepCase s (.abort w) { s with pending := Function.update s.pending w none }

theorem step_cases {s s' : State ι α} {e : Event ι α} (h : step s e = some s') :
    StepCase s e s' := by
  cases e with
  | start w item =>
      simp only [step] at h
      split at h
      · rename_i hnone
        cases h
        exact .start w item hnone
      · cases h
  | put w k =>
      simp only [step] at h
      split at h
      · cases h
      · rename_i p hp
        split_ifs at h with hk
        cases h
        exact .put w k p hp hk.1 hk.2
  | finish w =>
      simp only [step] at h
      split at h
      · cases h
      · rename_i p hp
        split_ifs at h with hend
        cases h
        exact .finish w p hp hend
  | abort w =>
      simp only [step] at h
      split at h
      · cases h
      · rename_i p hp
        cases h
        exact .abort w p hp

/-- The step lemma: an orderly step keeps the items whole. -/
theorem Whole.step {s s' : State ι α} {n : Notes α} {rest : List α} {e : Event ι α}
    (h : Whole s n rest) (horderly : Orderly s n e) (hstep : step s e = some s') :
    ∃ rest', Whole s' (note s e n) rest' := by
  cases step_cases hstep with
  | start w item hnone =>
      refine ⟨rest, h.settle (fun p hp ↦ ?_) rfl id fun _ p hp ↦ ?_⟩
      · obtain rfl := Option.some.inj hp
        rfl
      · rw [hnone] at hp
        cases hp
  | put w k p hp hk hfits =>
      obtain ⟨hcut, halone⟩ := horderly w k rfl
      exact ⟨_, h.put hp hcut halone hk hfits⟩
  | finish w p hp hend =>
      refine ⟨rest, h.settle nofun rfl id fun _ q hq hmid ↦ ?_⟩
      obtain rfl := Option.some.inj (hp.symm.trans hq)
      have hlt := hmid.2
      omega
  | abort w p hp =>
      refine ⟨rest, h.settle nofun ?_ (fun hcut ↦ ?_) fun hcut q hq hmid ↦ ?_⟩
      · simp only [note, hp]
      · simp only [note, hp, Bool.or_eq_false_iff] at hcut
        exact hcut.1
      · obtain rfl := Option.some.inj (hp.symm.trans hq)
        simp [note, hp, hmid.1, hmid.2] at hcut

/-- The run lemma. -/
theorem Run.whole {s : State ι α} {n : Notes α} (h : Run s n) : ∃ rest, Whole s n rest := by
  apply Observer.Reach.invariant (I := fun s n ↦ ∃ rest, Whole s n rest) _ _ h
  · exact ⟨[], nofun, rfl, nofun, fun _ _ ↦ rfl⟩
  · rintro s n e s' - ⟨rest, hwhole⟩ horderly hstep
    exact hwhole.step horderly hstep

/-- In an orderly run the stream is a prefix of the items that were begun. -/
theorem Run.isPrefix {s : State ι α} {n : Notes α} (h : Run s n) :
    s.stream <+: n.begun.flatten := by
  obtain ⟨rest, hwhole⟩ := h.whole
  exact ⟨rest, hwhole.stream⟩

/-- It is all of them once nobody is in the middle of one. -/
theorem Run.eq_flatten {s : State ι α} {n : Notes α} (h : Run s n) (hcut : n.cut = false)
    (hquiet : s.Quiet) : s.stream = n.begun.flatten := by
  obtain ⟨rest, hwhole⟩ := h.whole
  have hstream := hwhole.stream
  rwa [hwhole.quiet hcut hquiet, List.append_nil] at hstream

end

end Writers
