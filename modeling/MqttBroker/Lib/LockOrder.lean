import Mathlib.Data.List.Basic
import Mathlib.Data.Set.Insert
import Mathlib.Logic.Function.Basic
import Mathlib.Logic.Relation
import Mathlib.Order.BooleanAlgebra.Set
import Mathlib.Tactic.Common

/-!
# Locks taken in order

Threads that take locks, release them, and call out to where they may have to wait.  When
every thread takes its locks in the order of a rank, each one that cannot go on waits,
directly or through others, for one that can.  When it also calls out only while everything
it holds ranks below some bound, waiting for a lock from that bound on never depends on
such a call.
-/

namespace LockOrder

variable {L T ι : Type*}

/-- What a program does with locks. -/
inductive Code (L : Type*) where
  | skip
  /-- a call that may take as long as the outside pleases -/
  | call
  | lock (l : L)
  | unlock (l : L)
  | seq (a b : Code L)
  | alt (a b : Code L)
  | loop (a : Code L)

namespace Code

def block : List (Code L) → Code L
  | [] => skip
  | c :: cs => seq c (block cs)

/-- Done or left out. -/
def opt (c : Code L) : Code L := alt c skip

def each (xs : List ι) (f : ι → Code L) : Code L := block (xs.map f)

/-- For the first of the candidates that will do, or for none. -/
def find (xs : List ι) (f : ι → Code L) (other : Code L) : Code L :=
  xs.foldr (fun i c ↦ alt (f i) c) other

def locked (l : L) (body : Code L) : Code L := block [lock l, body, unlock l]

end Code

inductive Act (L : Type*) where
  | silent
  | call
  | acquire (l : L)
  | release (l : L)

/-- One step of a program. -/
inductive Code.Step : Code L → Act L → Code L → Prop
  | call : Step .call .call .skip
  | lock (l : L) : Step (.lock l) (.acquire l) .skip
  | unlock (l : L) : Step (.unlock l) (.release l) .skip
  | seq {a a' b : Code L} {x : Act L} (h : Step a x a') : Step (.seq a b) x (.seq a' b)
  | next (b : Code L) : Step (.seq .skip b) .silent b
  | left (a b : Code L) : Step (.alt a b) .silent a
  | right (a b : Code L) : Step (.alt a b) .silent b
  | again (a : Code L) : Step (.loop a) .silent (.seq a (.loop a))
  | leave (a : Code L) : Step (.loop a) .silent .skip

/-- The order in which locks are taken. -/
structure Discipline (L : Type*) where
  rank : L → ℕ
  /-- no lock of this rank or above is held during a call -/
  quiet : ℕ
  top : ℕ
  rank_le : ∀ l, rank l ≤ top

variable {d : Discipline L}

/-- Run while `H` is held, the program keeps to the order and leaves `H'` held. -/
def Code.After (d : Discipline L) : Code L → Set L → Set L → Prop
  | skip, H, H' => H' = H
  | call, H, H' => (∀ h ∈ H, d.rank h < d.quiet) ∧ H' = H
  | lock l, H, H' => (∀ h ∈ H, d.rank h < d.rank l) ∧ H' = insert l H
  | unlock l, H, H' => l ∈ H ∧ H' = H \ {l}
  | seq a b, H, H' => ∃ M, After d a H M ∧ After d b M H'
  | alt a b, H, H' => After d a H H' ∧ After d b H H'
  | loop a, H, H' => H' = H ∧ After d a H H

namespace Code

/-- What an action needs of the locks held. -/
def Allowed (d : Discipline L) (H : Set L) : Act L → Prop
  | .silent => True
  | .call => ∀ h ∈ H, d.rank h < d.quiet
  | .acquire l => ∀ h ∈ H, d.rank h < d.rank l
  | .release l => l ∈ H

/-- What it makes of them. -/
def hold (H : Set L) : Act L → Set L
  | .silent => H
  | .call => H
  | .acquire l => insert l H
  | .release l => H \ {l}

theorem After.step {c c' : Code L} {x : Act L} {H H' : Set L} (h : c.After d H H')
    (hstep : Step c x c') : Allowed d H x ∧ c'.After d (hold H x) H' := by
  induction hstep generalizing H' with
  | call => exact h
  | lock l => exact h
  | unlock l => exact h
  | seq _ ih =>
      obtain ⟨M, ha, hb⟩ := h
      obtain ⟨hallowed, ha'⟩ := ih ha
      exact ⟨hallowed, M, ha', hb⟩
  | next b =>
      obtain ⟨M, hM, hb⟩ := h
      cases hM
      exact ⟨trivial, hb⟩
  | left a b => exact ⟨trivial, h.1⟩
  | right a b => exact ⟨trivial, h.2⟩
  | again a =>
      obtain ⟨rfl, ha⟩ := h
      exact ⟨trivial, H', ha, rfl, ha⟩
  | leave a => exact ⟨trivial, h.1⟩

theorem exists_step (c : Code L) (hc : c ≠ skip) : ∃ x c', Step c x c' := by
  induction c with
  | skip => exact absurd rfl hc
  | call => exact ⟨_, _, .call⟩
  | lock l => exact ⟨_, _, .lock l⟩
  | unlock l => exact ⟨_, _, .unlock l⟩
  | seq a b iha _ =>
      by_cases ha : a = skip
      · subst ha
        exact ⟨_, _, .next b⟩
      · obtain ⟨x, a', hstep⟩ := iha ha
        exact ⟨x, _, .seq hstep⟩
  | alt a b _ _ => exact ⟨_, _, .left a b⟩
  | loop a _ => exact ⟨_, _, .leave a⟩

/-! ### Which programs keep to the order -/

/-- Whenever what is held ranks below `m`, the program keeps to the order, and in the end
holds the same. -/
def Above (d : Discipline L) (m : ℕ) (c : Code L) : Prop :=
  ∀ H : Set L, (∀ h ∈ H, d.rank h < m) → c.After d H H

variable {m n : ℕ} {a b c : Code L} {l : L}

theorem Above.mono (h : Above d n c) (hm : m ≤ n) : Above d m c :=
  fun H hH ↦ h H fun l hl ↦ (hH l hl).trans_le hm

theorem above_skip : Above d m (skip : Code L) := fun _ _ ↦ rfl

theorem above_call (hm : m ≤ d.quiet) : Above d m (call : Code L) :=
  fun _ hH ↦ ⟨fun l hl ↦ (hH l hl).trans_le hm, rfl⟩

theorem Above.seq (ha : Above d m a) (hb : Above d m b) : Above d m (.seq a b) :=
  fun H hH ↦ ⟨H, ha H hH, hb H hH⟩

theorem Above.alt (ha : Above d m a) (hb : Above d m b) : Above d m (.alt a b) :=
  fun H hH ↦ ⟨ha H hH, hb H hH⟩

theorem Above.loop (ha : Above d m a) : Above d m (.loop a) := fun H hH ↦ ⟨rfl, ha H hH⟩

theorem Above.opt (ha : Above d m a) : Above d m a.opt := ha.alt above_skip

theorem above_block {cs : List (Code L)} (h : cs.Forall (Above d m)) : Above d m (block cs) := by
  induction cs with
  | nil => exact above_skip
  | cons c cs ih =>
      obtain ⟨hc, hcs⟩ := (List.forall_cons _ _ _).mp h
      exact hc.seq (ih hcs)

theorem above_pair (ha : Above d m a) (hb : Above d m b) : Above d m (block [a, b]) :=
  above_block ⟨ha, hb⟩

theorem above_each {xs : List ι} {f : ι → Code L} (h : ∀ i, Above d m (f i)) :
    Above d m (each xs f) := by
  apply above_block
  rw [List.forall_map_iff]
  exact List.forall_iff_forall_mem.mpr fun i _ ↦ h i

theorem above_find {xs : List ι} {f : ι → Code L} (h : ∀ i, Above d m (f i))
    (hother : Above d m c) : Above d m (find xs f c) := by
  induction xs with
  | nil => exact hother
  | cons i xs ih => exact (h i).alt ih

/-- Taking a lock above all that is held. -/
theorem lock_after {H : Set L} (hH : ∀ h ∈ H, d.rank h < d.rank l) :
    (lock l).After d H (insert l H) := ⟨hH, rfl⟩

theorem unlock_after {H : Set L} (hl : l ∈ H) : (unlock l).After d H (H \ {l}) := ⟨hl, rfl⟩

theorem notMem_of_rank {H : Set L} (hH : ∀ h ∈ H, d.rank h < d.rank l) : l ∉ H :=
  fun hl ↦ lt_irrefl _ (hH l hl)

theorem insert_rank {H : Set L} (hH : ∀ h ∈ H, d.rank h < m) (hl : d.rank l < m) :
    ∀ h ∈ insert l H, d.rank h < m := by
  rintro h (rfl | hh)
  · exact hl
  · exact hH h hh

theorem Above.locked (hbody : Above d n b) (hm : m ≤ d.rank l) (hn : d.rank l < n) :
    Above d m (locked l b) := by
  intro H hH
  have hbelow : ∀ h ∈ H, d.rank h < d.rank l := fun h hh ↦ (hH h hh).trans_le hm
  have hinside : ∀ h ∈ insert l H, d.rank h < n :=
    insert_rank (fun h hh ↦ (hbelow h hh).trans hn) hn
  refine ⟨insert l H, lock_after hbelow, insert l H, hbody _ hinside, H, ?_, rfl⟩
  have hend := unlock_after (d := d) (Set.mem_insert l H)
  rwa [Set.insert_sdiff_self_of_notMem (notMem_of_rank hbelow)] at hend

end Code

/-! ### Threads -/

structure State (T L : Type*) where
  owner : L → Option T
  code : T → Code L

namespace State

variable {s s' : State T L} {t u : T}

def held (s : State T L) (t : T) : Set L := {l | s.owner l = some t}

/-- Nothing is held, and the threads are about to run their programs. -/
def start (program : T → Code L) : State T L := ⟨fun _ ↦ none, program⟩

section

variable [DecidableEq T] [DecidableEq L]

/-- A lock is taken while nobody has it, and released by the thread that has it. -/
inductive Step (s : State T L) (t : T) : Act L → State T L → Prop
  | silent {c : Code L} (h : (s.code t).Step .silent c) :
      Step s t .silent { s with code := Function.update s.code t c }
  | call {c : Code L} (h : (s.code t).Step .call c) :
      Step s t .call { s with code := Function.update s.code t c }
  | acquire {c : Code L} (l : L) (h : (s.code t).Step (.acquire l) c) (hfree : s.owner l = none) :
      Step s t (.acquire l)
        ⟨Function.update s.owner l (some t), Function.update s.code t c⟩
  | release {c : Code L} (l : L) (h : (s.code t).Step (.release l) c)
      (hown : s.owner l = some t) :
      Step s t (.release l) ⟨Function.update s.owner l none, Function.update s.code t c⟩

/-- What any number of steps of any threads lead to. -/
def Reach (program : T → Code L) (s : State T L) : Prop :=
  Relation.ReflTransGen (fun a b ↦ ∃ t x, State.Step a t x b) (start program) s

end

/-- `t` is at a lock that `u` has. -/
def WaitsFor (s : State T L) (t u : T) : Prop :=
  ∃ l c, (s.code t).Step (.acquire l) c ∧ s.owner l = some u

/-- The thread is at this lock. -/
def At (s : State T L) (t : T) (l : L) : Prop := ∃ c, (s.code t).Step (.acquire l) c

/-- Each thread keeps to the order from what it holds now, and leaves nothing held. -/
def Ordered (d : Discipline L) (s : State T L) : Prop :=
  ∀ t, (s.code t).After d (s.held t) ∅

theorem Ordered.allowed (h : s.Ordered d) {x : Act L} {c : Code L}
    (hstep : (s.code t).Step x c) : Code.Allowed d (s.held t) x := ((h t).step hstep).1

theorem ordered_start {program : T → Code L} (h : ∀ t, (program t).Above d 0) :
    (start program).Ordered d := by
  intro t
  have hempty : (start program).held t = ∅ := by simp [held, start]
  rw [hempty]
  exact h t ∅ (by simp)

/-- A thread that has something is not at its end. -/
theorem Ordered.code_ne_skip (h : s.Ordered d) {l : L} (hown : s.owner l = some t) :
    s.code t ≠ .skip := by
  intro hskip
  have hafter := h t
  rw [hskip] at hafter
  have hempty : s.held t = ∅ := hafter.symm
  have hmem : l ∈ s.held t := hown
  rw [hempty] at hmem
  exact hmem

section

variable [DecidableEq T] [DecidableEq L]

omit [DecidableEq L] in
theorem Ordered.silent (h : s.Ordered d) {x : Act L} {c : Code L} (hstep : (s.code t).Step x c)
    (hx : Code.hold (s.held t) x = s.held t) :
    Ordered d { s with code := Function.update s.code t c } := by
  intro v
  by_cases hv : v = t
  · subst hv
    have hafter := ((h v).step hstep).2
    rw [hx] at hafter
    simpa [held] using hafter
  · simpa [held, Function.update_of_ne hv] using h v

theorem held_acquire (hfree : s.owner l = none) (code : T → Code L) (v : T) :
    State.held ⟨Function.update s.owner l (some t), code⟩ v =
      if v = t then insert l (s.held t) else s.held v := by
  ext k
  by_cases hk : k = l
  · subst hk
    by_cases hv : v = t
    · simp [held, hv]
    · simp [held, hv, hfree, Ne.symm hv]
  · by_cases hv : v = t <;> simp [held, hk, hv]

theorem held_release (hown : s.owner l = some t) (code : T → Code L) (v : T) :
    State.held ⟨Function.update s.owner l none, code⟩ v =
      if v = t then s.held t \ {l} else s.held v := by
  ext k
  by_cases hk : k = l
  · subst hk
    by_cases hv : v = t
    · simp [held, hv]
    · simp [held, hv, hown, Ne.symm hv]
  · by_cases hv : v = t <;> simp [held, hk, hv]

theorem Ordered.step (h : s.Ordered d) {x : Act L} (hstep : s.Step t x s') : s'.Ordered d := by
  cases hstep with
  | silent hc => exact h.silent hc rfl
  | call hc => exact h.silent hc rfl
  | acquire l hc hfree =>
      intro v
      rw [held_acquire hfree]
      by_cases hv : v = t
      · subst hv
        have hafter := ((h v).step hc).2
        dsimp only [Code.hold] at hafter
        rw [if_pos rfl]
        dsimp only
        rwa [Function.update_self]
      · simpa [hv] using h v
  | release l hc hown =>
      intro v
      rw [held_release hown]
      by_cases hv : v = t
      · subst hv
        have hafter := ((h v).step hc).2
        dsimp only [Code.hold] at hafter
        rw [if_pos rfl]
        dsimp only
        rwa [Function.update_self]
      · simpa [hv] using h v

theorem ordered_of_reach {program : T → Code L} (hp : ∀ t, (program t).Above d 0)
    (h : Reach program s) : s.Ordered d := by
  induction h with
  | refl => exact ordered_start hp
  | tail _ hstep ih =>
      obtain ⟨t, x, hx⟩ := hstep
      exact ih.step hx

/-- At what is not a lock that somebody has, a thread can go on. -/
theorem Ordered.exists_step (h : s.Ordered d) {x : Act L} {c : Code L}
    (hc : (s.code t).Step x c) (hx : ∀ l, x = .acquire l → s.owner l = none) :
    ∃ s', s.Step t x s' := by
  cases x with
  | silent => exact ⟨_, .silent hc⟩
  | call => exact ⟨_, .call hc⟩
  | acquire l => exact ⟨_, .acquire l hc (hx l rfl)⟩
  | release l => exact ⟨_, .release l hc (h.allowed hc)⟩

/-- From the owner of a lock the waiting goes on to higher ranks only, so it ends. -/
theorem Ordered.owner_ends (h : s.Ordered d) (l : L) (hown : s.owner l = some t) :
    ∃ u, Relation.ReflTransGen s.WaitsFor t u ∧ ∃ x s', s.Step u x s' ∧
      (d.quiet ≤ d.rank l → x ≠ .call) := by
  induction hk : d.top - d.rank l using Nat.strong_induction_on generalizing l t with
  | h k ih =>
      obtain ⟨x, c, hc⟩ := (s.code t).exists_step (h.code_ne_skip hown)
      by_cases hfree : ∀ l', x = .acquire l' → s.owner l' = none
      · obtain ⟨s', hs'⟩ := h.exists_step hc hfree
        refine ⟨t, .refl, x, s', hs', fun hquiet hx ↦ ?_⟩
        subst hx
        have hlow : d.rank l < d.quiet := h.allowed hc l hown
        omega
      · push Not at hfree
        obtain ⟨l', rfl, howned⟩ := hfree
        obtain ⟨u, hu⟩ := Option.ne_none_iff_exists'.mp howned
        have hrank : d.rank l < d.rank l' := h.allowed hc l hown
        have htop := d.rank_le l'
        obtain ⟨v, hchain, y, s', hs', hy⟩ := ih _ (by omega) l' hu rfl
        refine ⟨v, .head ⟨l', c, hc, hu⟩ hchain, y, s', hs', fun hquiet ↦ hy ?_⟩
        omega

/-- Every thread that is not at its end waits for one that can go on. -/
theorem Ordered.waiting_ends (h : s.Ordered d) (ht : s.code t ≠ .skip) :
    ∃ u, Relation.ReflTransGen s.WaitsFor t u ∧ ∃ x s', s.Step u x s' := by
  obtain ⟨x, c, hc⟩ := (s.code t).exists_step ht
  by_cases hfree : ∀ l, x = .acquire l → s.owner l = none
  · obtain ⟨s', hs'⟩ := h.exists_step hc hfree
    exact ⟨t, .refl, x, s', hs'⟩
  · push Not at hfree
    obtain ⟨l, rfl, howned⟩ := hfree
    obtain ⟨u, hu⟩ := Option.ne_none_iff_exists'.mp howned
    obtain ⟨v, hchain, y, s', hs', -⟩ := h.owner_ends l hu
    exact ⟨v, .head ⟨l, c, hc, hu⟩ hchain, y, s', hs'⟩

/-- At a quiet lock it waits for one that need not call out. -/
theorem Ordered.quiet_waiting_ends (h : s.Ordered d) {l : L} (hat : s.At t l)
    (hl : d.quiet ≤ d.rank l) :
    ∃ u, Relation.ReflTransGen s.WaitsFor t u ∧ ∃ x s', s.Step u x s' ∧ x ≠ .call := by
  obtain ⟨c, hc⟩ := hat
  cases hu : s.owner l with
  | none =>
      obtain ⟨s', hs'⟩ := h.exists_step hc fun l' heq ↦ by cases heq; exact hu
      exact ⟨t, .refl, _, s', hs', by simp⟩
  | some u =>
      obtain ⟨v, hchain, y, s', hs', hy⟩ := h.owner_ends l hu
      exact ⟨v, .head ⟨l, c, hc, hu⟩ hchain, y, s', hs', hy hl⟩

end

end State

end LockOrder
