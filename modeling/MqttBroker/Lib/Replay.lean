import Mathlib

/-!
# Maps written event by event

A map that starts empty and is written, one key at a time, by a list of events.
Each key holds the value of its last write, unless it was erased since.
-/

namespace Replay

variable {K V : Type*} [DecidableEq K]

/-- `some (k, some v)` writes `v` at `k`, `some (k, none)` erases `k`, and `none`
leaves the map as it is. -/
def apply (m : K → Option V) : Option (K × Option V) → K → Option V
  | none => m
  | some (k, v) => Function.update m k v

def replay (l : List (Option (K × Option V))) : K → Option V := l.foldl apply fun _ ↦ none

@[simp] theorem replay_nil : replay ([] : List (Option (K × Option V))) = fun _ ↦ none := rfl

theorem replay_concat (l : List (Option (K × Option V))) (w : Option (K × Option V)) :
    replay (l ++ [w]) = apply (replay l) w := by simp [replay]

theorem replay_append (l l' : List (Option (K × Option V))) :
    replay (l ++ l') = l'.foldl apply (replay l) := List.foldl_append

theorem apply_eq_some_iff {m : K → Option V} {w : Option (K × Option V)} {k : K} {v : V} :
    apply m w k = some v ↔ w = some (k, some v) ∨ (∀ u, w ≠ some (k, u)) ∧ m k = some v := by
  rcases w with - | ⟨k', u⟩
  · simp [apply]
  · by_cases hk : k' = k
    · subst hk
      simp [apply]
    · have hk' : k ≠ k' := fun h ↦ hk h.symm
      simp [apply, hk, hk']

/-- The value at a key is that of the last write, and no later event was about the key. -/
theorem replay_eq_some_iff {l : List (Option (K × Option V))} {k : K} {v : V} :
    replay l k = some v ↔ ∃ past later, l = past ++ some (k, some v) :: later ∧
      ∀ w ∈ later, ∀ u, w ≠ some (k, u) := by
  induction l using List.reverseRecOn with
  | nil => simp
  | append_singleton l w ih =>
      rw [replay_concat, apply_eq_some_iff, ih]
      constructor
      · rintro (rfl | ⟨hother, past, later, rfl, hlater⟩)
        · exact ⟨l, [], rfl, by simp⟩
        · refine ⟨past, later ++ [w], by simp, fun w' hw' ↦ ?_⟩
          rcases List.mem_append.mp hw' with hw' | hw'
          · exact hlater w' hw'
          · obtain rfl := List.mem_singleton.mp hw'
            exact hother
      · rintro ⟨past, later, heq, hlater⟩
        rcases List.eq_nil_or_concat later with rfl | ⟨later, w', rfl⟩
        · exact Or.inl (List.singleton_inj.mp (List.append_inj' heq rfl).2)
        · rw [List.concat_eq_append, ← List.cons_append, ← List.append_assoc] at heq
          obtain ⟨rfl, hw⟩ := List.append_inj' heq rfl
          obtain rfl := List.singleton_inj.mp hw
          refine Or.inr ⟨hlater w (by simp), past, later, rfl, fun w' hw' ↦ hlater w' ?_⟩
          simp [hw']

section

variable {M : Type*} (key : M → K) (val : M → Option V)

/-- Where each event is a message about one key, a key holds what the last message about it
says. -/
theorem replay_map_last (ms : List M) (k : K) :
    replay (ms.map fun m ↦ some (key m, val m)) k =
      ((ms.filter fun m ↦ key m = k).getLast?).bind val := by
  induction ms using List.reverseRecOn with
  | nil => rfl
  | append_singleton ms m ih =>
      rw [List.map_append, List.map_singleton, replay_concat, List.filter_append]
      by_cases hk : key m = k
      · simp [apply, hk]
      · simp [apply, hk, Ne.symm hk, ih]

end

end Replay
