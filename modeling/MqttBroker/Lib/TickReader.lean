import Mathlib

/-!
# Reading a stream with timeouts

Readers of a stream in which `none` marks a receive timeout.  A reader stops
with what it read, with a refusal, or because a timeout or the end of the
stream came first.  `Prefixed` readers decide by a prefix of the stream alone,
and the property is closed under sequencing.
-/

namespace TickReader

variable {α β γ ε ω ω' : Type}

abbrev Ticks (α : Type) := List (Option α)

/-- Why a reader stopped early. -/
inductive Stop (ε : Type) where
  | timeout
  | closed
  | refused (e : ε)
  deriving DecidableEq, Repr

/-- Readers of a source `ω`. -/
def Reader (ω ε β : Type) := ω → Except (Stop ε) β × ω

namespace Reader

def andThen (x : Reader ω ε β) (f : β → Reader ω ε γ) : Reader ω ε γ := fun w ↦
  match x w with
  | (.ok a, w') => f a w'
  | (.error e, w') => (.error e, w')

instance : Monad (Reader ω ε) where
  pure a := fun w ↦ (.ok a, w)
  bind := andThen

/-- Stop without reading. -/
def stop (e : Stop ε) : Reader ω ε β := fun w ↦ (.error e, w)

variable {x : Reader ω ε β} {w w' : ω}

theorem bind_ok {a : β} (h : x w = (.ok a, w')) (f : β → Reader ω ε γ) :
    (x >>= f) w = f a w' := by
  show andThen x f w = _
  simp [andThen, h]

theorem bind_error {e : Stop ε} (h : x w = (.error e, w')) (f : β → Reader ω ε γ) :
    (x >>= f) w = (.error e, w') := by
  show andThen x f w = _
  simp [andThen, h]

theorem bind_eq_ok {f : β → Reader ω ε γ} {c : γ} (h : (x >>= f) w = (.ok c, w')) :
    ∃ a w₁, x w = (.ok a, w₁) ∧ f a w₁ = (.ok c, w') := by
  rcases hx : x w with ⟨e | a, w₁⟩
  · rw [bind_error hx] at h
    cases h
  · exact ⟨a, w₁, rfl, by rw [← h, bind_ok hx]⟩

theorem bind_eq_error {f : β → Reader ω ε γ} {e : Stop ε} (h : (x >>= f) w = (.error e, w')) :
    x w = (.error e, w') ∨ ∃ a w₁, x w = (.ok a, w₁) ∧ f a w₁ = (.error e, w') := by
  rcases hx : x w with ⟨e' | a, w₁⟩
  · rw [bind_error hx] at h
    cases h
    exact .inl rfl
  · exact .inr ⟨a, w₁, rfl, by rw [← h, bind_ok hx]⟩

theorem pure_bind (a : β) (f : β → Reader ω ε γ) : (pure a >>= f) = f a := rfl

theorem bind_assoc {δ : Type} (x : Reader ω ε β) (f : β → Reader ω ε γ) (g : γ → Reader ω ε δ) :
    x >>= f >>= g = x >>= fun a ↦ f a >>= g := by
  funext w
  rcases hx : x w with ⟨e | a, w'⟩
  · rw [bind_error hx, bind_error (bind_error hx f)]
  · rw [bind_ok hx]
    show andThen (andThen x f) g w = _
    simp only [andThen, hx]
    rfl

end Reader

/-! ## Readers of two sources -/

/-- `x` on `w` and `y` on `φ w` do the same. -/
def Simulates (φ : ω → ω') (x : Reader ω ε β) (y : Reader ω' ε β) : Prop :=
  ∀ w, y (φ w) = ((x w).1, φ (x w).2)

theorem Simulates.pure (φ : ω → ω') (a : β) :
    Simulates φ (pure a : Reader ω ε β) (pure a : Reader ω' ε β) := fun _ ↦ rfl

theorem Simulates.stop (φ : ω → ω') (e : Stop ε) :
    Simulates φ (Reader.stop e : Reader ω ε β) (Reader.stop e) := fun _ ↦ rfl

theorem Simulates.bind {φ : ω → ω'} {x : Reader ω ε β} {y : Reader ω' ε β}
    (h : Simulates φ x y) {f : β → Reader ω ε γ} {g : β → Reader ω' ε γ}
    (hf : ∀ a, Simulates φ (f a) (g a)) : Simulates φ (x >>= f) (y >>= g) := by
  intro w
  have hy := h w
  rcases hx : x w with ⟨e | a, w'⟩ <;> rw [hx] at hy
  · rw [Reader.bind_error hx, Reader.bind_error hy]
  · rw [Reader.bind_ok hx, Reader.bind_ok hy]
    exact hf a w'

/-! ## Readers that decide by a prefix -/

/-- After `bs` the reader still wants more: it fails when the stream ends, and
when a timeout comes. -/
structure Waits (x : Reader (Ticks α) ε β) (bs : List α) : Prop where
  closed : x (bs.map some) = (.error .closed, [])
  timeout : ∀ tail, x (bs.map some ++ none :: tail) = (.error .timeout, tail)

/-- The reader stops after exactly the items `frame`, whatever follows. -/
structure Completes (x : Reader (Ticks α) ε β) (frame : List α) (r : Except ε β) : Prop where
  full : ∀ tail, x (frame.map some ++ tail) = (r.mapError .refused, tail)
  waits : ∀ pre a post, frame = pre ++ a :: post → Waits x pre

/-- The reader has not stopped within `bs`. -/
def Starves (x : Reader (Ticks α) ε β) (bs : List α) : Prop :=
  ∀ pre post, bs = pre ++ post → Waits x pre

/-- On every stream the reader either stops after a prefix or starves. -/
def Prefixed (x : Reader (Ticks α) ε β) : Prop :=
  ∀ bs, (∃ frame rest r, bs = frame ++ rest ∧ Completes x frame r) ∨ Starves x bs

theorem Completes.pure (a : β) : Completes (pure a : Reader (Ticks α) ε β) [] (.ok a) :=
  ⟨fun _ ↦ rfl, by simp⟩

theorem Completes.refuse (e : ε) :
    Completes (Reader.stop (.refused e) : Reader (Ticks α) ε β) [] (.error e) :=
  ⟨fun _ ↦ rfl, by simp⟩

theorem Completes.prefixed {x : Reader (Ticks α) ε β} {r : Except ε β}
    (h : Completes x [] r) : Prefixed x := fun bs ↦ Or.inl ⟨[], bs, r, rfl, h⟩

theorem Completes.not_waits {x : Reader (Ticks α) ε β} {frame : List α} {r : Except ε β}
    (h : Completes x frame r) : ¬ Waits x frame := by
  intro hw
  have heq := (h.full []).symm.trans (by simpa using hw.closed)
  cases r <;> simp [Except.mapError] at heq

section

variable {x : Reader (Ticks α) ε β} {f : β → Reader (Ticks α) ε γ}

theorem Waits.bind {bs : List α} (h : Waits x bs) : Waits (x >>= f) bs where
  closed := Reader.bind_error h.closed f
  timeout tail := Reader.bind_error (h.timeout tail) f

theorem Completes.bind_waits {frame : List α} {a : β} (h : Completes x frame (.ok a))
    {bs : List α} (hw : Waits (f a) bs) : Waits (x >>= f) (frame ++ bs) where
  closed := by
    rw [List.map_append, Reader.bind_ok (h.full _)]
    exact hw.closed
  timeout tail := by
    rw [List.map_append, List.append_assoc, Reader.bind_ok (h.full _)]
    exact hw.timeout tail

theorem Completes.bind {frame frame' : List α} {a : β} (h : Completes x frame (.ok a))
    {r : Except ε γ} (h' : Completes (f a) frame' r) :
    Completes (x >>= f) (frame ++ frame') r where
  full tail := by
    rw [List.map_append, List.append_assoc, Reader.bind_ok (h.full _)]
    exact h'.full tail
  waits pre b post heq := by
    rcases List.append_eq_append_iff.mp heq with ⟨more, rfl, hmore⟩ | ⟨more, hmore, hpost⟩
    · exact h.bind_waits (h'.waits more b post hmore)
    · cases more with
      | nil =>
          obtain rfl : pre = frame := by simpa using hmore.symm
          simpa using h.bind_waits (h'.waits [] b post hpost.symm)
      | cons c more => exact (h.waits pre c more hmore).bind

theorem Completes.bind_refused {frame : List α} {e : ε} (h : Completes x frame (.error e)) :
    Completes (x >>= f) frame (.error e) where
  full tail := Reader.bind_error (h.full tail) f
  waits pre a post heq := (h.waits pre a post heq).bind

theorem Starves.bind {bs : List α} (h : Starves x bs) : Starves (x >>= f) bs :=
  fun pre post heq ↦ (h pre post heq).bind

theorem Completes.bind_starves {frame : List α} {a : β} (h : Completes x frame (.ok a))
    {bs : List α} (hs : Starves (f a) bs) : Starves (x >>= f) (frame ++ bs) := by
  intro pre post heq
  rcases List.append_eq_append_iff.mp heq with ⟨more, rfl, hmore⟩ | ⟨more, hmore, hpost⟩
  · exact h.bind_waits (hs more post hmore)
  · cases more with
    | nil =>
        obtain rfl : pre = frame := by simpa using hmore.symm
        simpa using h.bind_waits (hs [] bs rfl)
    | cons c more => exact (h.waits pre c more hmore).bind

theorem Prefixed.bind (h : Prefixed x) (hf : ∀ a, Prefixed (f a)) : Prefixed (x >>= f) := by
  intro bs
  rcases h bs with ⟨frame, rest, r, rfl, hx⟩ | hs
  · cases r with
    | error e => exact Or.inl ⟨frame, rest, .error e, rfl, hx.bind_refused⟩
    | ok a =>
        rcases hf a rest with ⟨frame', rest', r, rfl, hfa⟩ | hs
        · exact Or.inl ⟨frame ++ frame', rest', r, (List.append_assoc _ _ _).symm, hx.bind hfa⟩
        · exact Or.inr (hx.bind_starves hs)
  · exact Or.inr hs.bind

end

@[simp] theorem reduceOption_map_some (as : List α) : (as.map some).reduceOption = as := by
  induction as with
  | nil => rfl
  | cons a as ih => simp [ih]

/-- A stream is items only, or items up to a first timeout. -/
theorem ticks_cases (l : Ticks α) :
    (∃ as : List α, l = as.map some) ∨
      ∃ (as : List α) (tail : Ticks α), l = as.map some ++ none :: tail := by
  induction l with
  | nil => exact Or.inl ⟨[], rfl⟩
  | cons t l ih =>
      cases t with
      | none => exact Or.inr ⟨[], l, rfl⟩
      | some a =>
          rcases ih with ⟨as, rfl⟩ | ⟨as, tail, rfl⟩
          · exact Or.inl ⟨a :: as, rfl⟩
          · exact Or.inr ⟨a :: as, tail, rfl⟩

/-! ## Reading a fixed number of items -/

/-- Read exactly `n` items; what was read before a timeout is dropped. -/
def takeExact : ℕ → Reader (Ticks α) ε (List α)
  | 0, l => (.ok [], l)
  | _ + 1, [] => (.error .closed, [])
  | _ + 1, none :: l => (.error .timeout, l)
  | n + 1, some a :: l => ((takeExact n l).1.map (a :: ·), (takeExact n l).2)

theorem takeExact_add (as : List α) (n : ℕ) (l : Ticks α) :
    (takeExact (as.length + n) : Reader (Ticks α) ε _) (as.map some ++ l) =
      (((takeExact n : Reader (Ticks α) ε _) l).1.map (as ++ ·),
        ((takeExact n : Reader (Ticks α) ε _) l).2) := by
  induction as with
  | nil =>
      rw [List.length_nil, Nat.zero_add, List.map_nil, List.nil_append]
      rcases (takeExact n : Reader (Ticks α) ε _) l with ⟨_ | _, _⟩ <;> rfl
  | cons a as ih =>
      have hn : (a :: as).length + n = as.length + n + 1 := by
        simp only [List.length_cons]
        omega
      rw [hn, List.map_cons, List.cons_append, takeExact, ih]
      rcases (takeExact n : Reader (Ticks α) ε _) l with ⟨_ | _, _⟩ <;> rfl

theorem takeExact_append (as : List α) (tail : Ticks α) :
    (takeExact as.length : Reader (Ticks α) ε _) (as.map some ++ tail) = (.ok as, tail) := by
  simpa [takeExact, Except.map] using takeExact_add (ε := ε) as 0 tail

theorem waits_takeExact {n : ℕ} {as : List α} (h : as.length < n) :
    Waits (takeExact n : Reader (Ticks α) ε _) as := by
  induction as generalizing n with
  | nil =>
      cases n with
      | zero => simp at h
      | succ n => exact ⟨by simp [takeExact], by simp [takeExact]⟩
  | cons a as ih =>
      cases n with
      | zero => simp at h
      | succ n =>
          have hw := ih (n := n) (by simpa using h)
          refine ⟨?_, fun tail ↦ ?_⟩
          · simp [takeExact, hw.closed, Except.map]
          · simp [takeExact, hw.timeout, Except.map]

theorem completes_takeExact (as : List α) :
    Completes (takeExact as.length : Reader (Ticks α) ε _) as (.ok as) where
  full tail := takeExact_append as tail
  waits pre a post heq := waits_takeExact (by simp [heq])

theorem takeExact_ok {n : ℕ} {as : List α} {l l' : Ticks α}
    (h : (takeExact n : Reader (Ticks α) ε _) l = (.ok as, l')) :
    l = as.map some ++ l' ∧ as.length = n := by
  induction n generalizing l as with
  | zero =>
      obtain ⟨has, rfl⟩ := Prod.mk.inj h
      obtain rfl : [] = as := Except.ok.inj has
      simp
  | succ n ih =>
      rcases l with _ | ⟨_ | a, l⟩
      · simp [takeExact] at h
      · simp [takeExact] at h
      · rcases hrest : (takeExact n : Reader (Ticks α) ε _) l with ⟨e | bs, l''⟩ <;>
          simp only [takeExact, hrest, Except.map, Prod.mk.injEq, reduceCtorEq, false_and,
            Except.ok.injEq] at h
        obtain ⟨rfl, rfl⟩ := h
        obtain ⟨rfl, rfl⟩ := ih hrest
        simp

theorem takeExact_ne_refused (n : ℕ) (l l' : Ticks α) (e : ε) :
    (takeExact n : Reader (Ticks α) ε (List α)) l ≠ (.error (.refused e), l') := by
  induction n generalizing l with
  | zero => simp [takeExact]
  | succ n ih =>
      rcases l with _ | ⟨_ | a, l⟩
      · simp [takeExact]
      · simp [takeExact]
      · rcases hrest : (takeExact n : Reader (Ticks α) ε _) l with ⟨s | bs, l''⟩
        · have hs := ih l
          simpa [takeExact, hrest, Except.map] using hs
        · simp [takeExact, hrest, Except.map]

theorem prefixed_takeExact (n : ℕ) : Prefixed (takeExact n : Reader (Ticks α) ε (List α)) := by
  intro bs
  by_cases h : n ≤ bs.length
  · refine Or.inl ⟨bs.take n, bs.drop n, .ok (bs.take n), (List.take_append_drop n bs).symm, ?_⟩
    have hn : (bs.take n).length = n := by simp [h]
    have hc := completes_takeExact (ε := ε) (bs.take n)
    rwa [hn] at hc
  · refine Or.inr fun pre post heq ↦ waits_takeExact ?_
    simp [heq] at h
    omega

end TickReader
