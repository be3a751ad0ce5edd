import MqttBroker.Lib.Observer
import MqttBroker.Mesh.Message
import MqttBroker.Topic.Matchers

/-!
# Publishes that wait for a next hop

The table `pending_qos`.  A flush copies entries under the lock, sends them without it, and
clears the slots they were copied from.
-/

namespace MqttBroker

open Observer

variable {k : ℕ} {T : Type}

/-- `p2p_pending_publish_t`; the frame has its length. -/
structure PendingPublish where
  msg : P2pPublishMsg
  frame : Bytes
  inUse : Bool
  deriving DecidableEq

/-- The static variable `pending_qos`, where `P2P_PENDING_QOS_MAX` is `k + 1`. -/
abbrev PendingQos (k : ℕ) := Fin (k + 1) → PendingPublish

/-- The slot that `pending_qos_store` writes to, if it writes. -/
def pendingQosSlot (pending : PendingQos k) (msg : P2pPublishMsg) (frame : Bytes) :
    Option (Fin (k + 1)) :=
  let slots := List.finRange (k + 1)
  if frame = [] ∨ msg.qos = 0 then none
  else if slots.any fun i ↦ (pending i).inUse && (pending i).msg.seq = msg.seq &&
      (pending i).msg.originId = msg.originId then none
  else some ((slots.find? fun i ↦ !(pending i).inUse).getD 0)

/-- The entries that `flush_pending_qos_for_filter` copies, with their slots. -/
def pendingBatch (pending : PendingQos k) (filter : Option CStr) :
    List (Fin (k + 1) × PendingPublish) :=
  ((List.finRange (k + 1)).filter fun i ↦ (pending i).inUse &&
    filter.all fun f ↦ topicMatchLocal f (pending i).msg.topic).map fun i ↦ (i, pending i)

/-- What a call of `flush_pending_qos_for_filter` still has to do. -/
structure PendingFlush (k : ℕ) where
  /-- the copies that were not sent yet -/
  toSend : List (Fin (k + 1) × PendingPublish)
  /-- the slot of a message that was sent -/
  toClear : Option (Fin (k + 1))

structure PendingState (k : ℕ) (T : Type) where
  pending : PendingQos k
  flush : T → PendingFlush k

def PendingState.start (k : ℕ) (T : Type) : PendingState k T :=
  ⟨fun _ ↦ ⟨⟨fun _ ↦ 0, 0, [], [], 0, 0⟩, [], false⟩, fun _ ↦ ⟨[], none⟩⟩

/-- A section under `pending_qos_lock`, or a send between two. -/
inductive PendingStep (T : Type) where
  /-- `pending_qos_store` -/
  | store (msg : P2pPublishMsg) (frame : Bytes)
  /-- thread `t` copies what matches the filter -/
  | copy (t : T) (filter : Option CStr)
  /-- thread `t` sends its next copy; there are this many routes, and so many next hops took it -/
  | send (t : T) (routes sent : ℕ)
  /-- thread `t` clears the slot of what it sent -/
  | clear (t : T)

/-- A message counts as sent. -/
def Taken (routes sent : ℕ) : Prop := 0 < routes ∧ 0 < sent

instance (routes sent : ℕ) : Decidable (Taken routes sent) := inferInstanceAs (Decidable (_ ∧ _))

variable [DecidableEq T]

def pendingStep (s : PendingState k T) : PendingStep T → Option (PendingState k T)
  | .store msg frame =>
      match pendingQosSlot s.pending msg frame with
      | none => some s
      | some i => some { s with pending := Function.update s.pending i ⟨msg, frame, true⟩ }
  | .copy t filter =>
      match s.flush t with
      | ⟨[], none⟩ => some { s with
          flush := Function.update s.flush t ⟨pendingBatch s.pending filter, none⟩ }
      | _ => none
  | .send t routes sent =>
      match s.flush t with
      | ⟨e :: rest, none⟩ => some { s with
          flush := Function.update s.flush t
            ⟨rest, if Taken routes sent then some e.1 else none⟩ }
      | _ => none
  | .clear t =>
      match s.flush t with
      | ⟨rest, some i⟩ => some
          ⟨Function.update s.pending i { s.pending i with inUse := false },
            Function.update s.flush t ⟨rest, none⟩⟩
      | _ => none

/-! ## What is stored, copied and sent -/

/-- Every message that is stored gets a number. -/
structure PendingNotes (k : ℕ) (T : Type) where
  stores : ℕ
  /-- the number of the message in each slot -/
  stamp : Fin (k + 1) → ℕ
  /-- the numbers in the slots when a thread copied them -/
  copied : T → Fin (k + 1) → ℕ
  /-- what a next hop took: the thread that sent it, its number, and the copy -/
  taken : List (T × ℕ × PendingPublish)

def PendingNotes.start (k : ℕ) (T : Type) : PendingNotes k T := ⟨0, fun _ ↦ 0, fun _ _ ↦ 0, []⟩

def pendingNote (s : PendingState k T) (e : PendingStep T) (n : PendingNotes k T) :
    PendingNotes k T :=
  match e with
  | .store msg frame =>
      match pendingQosSlot s.pending msg frame with
      | none => n
      | some i => { n with
          stores := n.stores + 1
          stamp := Function.update n.stamp i (n.stores + 1) }
  | .copy t _ => { n with copied := Function.update n.copied t n.stamp }
  | .send t routes sent =>
      match (s.flush t).toSend with
      | [] => n
      | e :: _ =>
          if Taken routes sent then
            { n with taken := (t, n.copied t e.1, e.2) :: n.taken }
          else n
  | .clear _ => n

def pendingSystem (k : ℕ) (T : Type) [DecidableEq T] :
    System (PendingState k T) (PendingStep T) (PendingNotes k T) where
  step := pendingStep
  note := pendingNote

/-- Where a slot is cleared, the thread that does it copied the message in it and no other
since, and sent it to a next hop. -/
def ClearedSent (s : PendingState k T) (n : PendingNotes k T) (e : PendingStep T)
    (s' : PendingState k T) : Prop :=
  ∀ i, (s.pending i).inUse = true → (s'.pending i).inUse = false → ∃ t, e = .clear t ∧
    n.copied t i = n.stamp i ∧ (t, n.stamp i, s.pending i) ∈ n.taken

/-- What a flush succeeds in sending is still in the slot it was copied from, and nothing is
stored there before the slot is cleared. -/
def Unreplaced (s : PendingState k T) (n : PendingNotes k T) : PendingStep T → Prop
  | .store msg frame => ∀ i ∈ pendingQosSlot s.pending msg frame, ∀ t,
      (s.flush t).toClear ≠ some i
  | .send t routes sent => Taken routes sent → ∀ e ∈ (s.flush t).toSend.head?,
      n.copied t e.1 = n.stamp e.1
  | _ => True

/-! ## The invariant -/

/-- A copy of what has not been replaced is equal to it, and what is going to be cleared
was sent. -/
structure PendingInv (s : PendingState k T) (n : PendingNotes k T) : Prop where
  copied_le : ∀ t i, n.copied t i ≤ n.stores
  stamp_le : ∀ i, n.stamp i ≤ n.stores
  batch : ∀ t, ∀ e ∈ (s.flush t).toSend, n.copied t e.1 = n.stamp e.1 →
    (s.pending e.1).inUse = true → s.pending e.1 = e.2
  clear : ∀ t i, (s.flush t).toClear = some i → n.copied t i = n.stamp i ∧
    ((s.pending i).inUse = true → (t, n.stamp i, s.pending i) ∈ n.taken)

variable {s s' : PendingState k T} {n : PendingNotes k T} {e : PendingStep T}

omit [DecidableEq T] in
theorem pendingInv_start : PendingInv (.start k T) (.start k T) where
  copied_le _ _ := le_rfl
  stamp_le _ := le_rfl
  batch _ _ he := absurd he List.not_mem_nil
  clear _ _ h := nomatch h

namespace PendingInv

omit [DecidableEq T] in
/-- A message is stored into a slot that no flush is about to clear. -/
theorem store (h : PendingInv s n) {i : Fin (k + 1)} (hi : ∀ t, (s.flush t).toClear ≠ some i)
    (p : PendingPublish) : PendingInv { s with pending := Function.update s.pending i p }
      { n with stores := n.stores + 1, stamp := Function.update n.stamp i (n.stores + 1) } where
  copied_le t j := (h.copied_le t j).trans (Nat.le_succ _)
  stamp_le j := by
    dsimp only
    rw [Function.update_apply]
    split_ifs
    · exact le_rfl
    · exact (h.stamp_le j).trans (Nat.le_succ _)
  batch t e he hstamp huse := by
    have hle := h.copied_le t e.1
    by_cases hei : e.1 = i
    · -- the copy is older than what is in the slot now
      rw [hei] at hstamp hle
      dsimp only at hstamp
      rw [Function.update_self] at hstamp
      omega
    · dsimp only at hstamp huse ⊢
      rw [Function.update_of_ne hei] at hstamp huse ⊢
      exact h.batch t e he hstamp huse
  clear t j hj := by
    have hji : j ≠ i := by
      rintro rfl
      exact hi t hj
    dsimp only
    rw [Function.update_of_ne hji, Function.update_of_ne hji]
    exact h.clear t j hj

theorem copy (h : PendingInv s n) (t : T) (filter : Option CStr) :
    PendingInv { s with flush := Function.update s.flush t ⟨pendingBatch s.pending filter, none⟩ }
      { n with copied := Function.update n.copied t n.stamp } where
  copied_le t' i := by
    dsimp only
    rw [Function.update_apply]
    split_ifs
    · exact h.stamp_le i
    · exact h.copied_le t' i
  stamp_le := h.stamp_le
  batch t' e he hstamp huse := by
    dsimp only at he hstamp
    by_cases ht : t' = t
    · subst ht
      rw [Function.update_self] at he
      obtain ⟨i, -, rfl⟩ := List.mem_map.mp he
      rfl
    · rw [Function.update_of_ne ht] at he hstamp
      exact h.batch t' e he hstamp huse
  clear t' i hi := by
    dsimp only at hi ⊢
    by_cases ht : t' = t
    · subst ht
      rw [Function.update_self] at hi
      cases hi
    · rw [Function.update_of_ne ht] at hi ⊢
      exact h.clear t' i hi

/-- A copy was sent, and no next hop took it. -/
theorem notTaken (h : PendingInv s n) {t : T} {x : Fin (k + 1) × PendingPublish}
    {rest : List (Fin (k + 1) × PendingPublish)} (ht : s.flush t = ⟨x :: rest, none⟩) :
    PendingInv { s with flush := Function.update s.flush t ⟨rest, none⟩ } n where
  copied_le := h.copied_le
  stamp_le := h.stamp_le
  batch t' e he := by
    dsimp only at he
    by_cases htt : t' = t
    · subst htt
      rw [Function.update_self] at he
      exact h.batch t' e (by rw [ht]; exact List.mem_cons_of_mem x he)
    · rw [Function.update_of_ne htt] at he
      exact h.batch t' e he
  clear t' i hi := by
    dsimp only at hi
    by_cases htt : t' = t
    · subst htt
      rw [Function.update_self] at hi
      cases hi
    · rw [Function.update_of_ne htt] at hi
      exact h.clear t' i hi

/-- A copy of what is in the slot was sent, and a next hop took it. -/
theorem taken (h : PendingInv s n) {t : T} {x : Fin (k + 1) × PendingPublish}
    {rest : List (Fin (k + 1) × PendingPublish)} (ht : s.flush t = ⟨x :: rest, none⟩)
    (hstamp : n.copied t x.1 = n.stamp x.1) :
    PendingInv { s with flush := Function.update s.flush t ⟨rest, some x.1⟩ }
      { n with taken := (t, n.copied t x.1, x.2) :: n.taken } where
  copied_le := h.copied_le
  stamp_le := h.stamp_le
  batch t' e he := by
    dsimp only at he
    by_cases htt : t' = t
    · subst htt
      rw [Function.update_self] at he
      exact h.batch t' e (by rw [ht]; exact List.mem_cons_of_mem x he)
    · rw [Function.update_of_ne htt] at he
      exact h.batch t' e he
  clear t' i hi := by
    dsimp only at hi ⊢
    by_cases htt : t' = t
    · subst htt
      rw [Function.update_self] at hi
      cases hi
      refine ⟨hstamp, fun huse ↦ ?_⟩
      rw [← hstamp, h.batch t' x (by rw [ht]; exact List.mem_cons_self) hstamp huse]
      exact List.mem_cons_self
    · rw [Function.update_of_ne htt] at hi
      exact ⟨(h.clear t' i hi).1, fun huse ↦ List.mem_cons_of_mem _ ((h.clear t' i hi).2 huse)⟩

theorem cleared (h : PendingInv s n) {t : T} {i : Fin (k + 1)}
    {rest : List (Fin (k + 1) × PendingPublish)} (ht : s.flush t = ⟨rest, some i⟩) :
    PendingInv ⟨Function.update s.pending i { s.pending i with inUse := false },
      Function.update s.flush t ⟨rest, none⟩⟩ n where
  copied_le := h.copied_le
  stamp_le := h.stamp_le
  batch t' e he hstamp huse := by
    dsimp only at he huse ⊢
    have hei : e.1 ≠ i := by
      intro hei
      rw [hei, Function.update_self] at huse
      cases huse
    rw [Function.update_of_ne hei] at huse ⊢
    refine h.batch t' e ?_ hstamp huse
    by_cases htt : t' = t
    · subst htt
      rw [Function.update_self] at he
      rw [ht]
      exact he
    · rwa [Function.update_of_ne htt] at he
  clear t' j hj := by
    dsimp only at hj ⊢
    by_cases htt : t' = t
    · subst htt
      rw [Function.update_self] at hj
      cases hj
    · rw [Function.update_of_ne htt] at hj
      refine ⟨(h.clear t' j hj).1, fun huse ↦ ?_⟩
      have hji : j ≠ i := by
        rintro rfl
        rw [Function.update_self] at huse
        cases huse
      rw [Function.update_of_ne hji] at huse ⊢
      exact (h.clear t' j hj).2 huse

end PendingInv

theorem pendingInv_step (h : PendingInv s n) (hallowed : Unreplaced s n e)
    (hstep : pendingStep s e = some s') : PendingInv s' (pendingNote s e n) := by
  cases e with
  | store msg frame =>
      simp only [pendingStep] at hstep
      simp only [pendingNote]
      cases hslot : pendingQosSlot s.pending msg frame with
      | none =>
          simp only [hslot] at hstep
          cases hstep
          exact h
      | some i =>
          simp only [hslot] at hstep
          cases hstep
          exact h.store (hallowed i hslot) _
  | copy t filter =>
      simp only [pendingStep] at hstep
      split at hstep
      · cases hstep
        exact h.copy t filter
      · cases hstep
  | send t routes sent =>
      simp only [pendingStep] at hstep
      split at hstep
      · next x rest ht =>
          cases hstep
          simp only [pendingNote, ht]
          split_ifs with htaken
          · exact h.taken ht (hallowed htaken x (by rw [ht]; rfl))
          · exact h.notTaken ht
      · cases hstep
  | clear t =>
      simp only [pendingStep] at hstep
      split at hstep
      · next rest i ht =>
          cases hstep
          exact h.cleared ht
      · cases hstep

/-- Only a flush clears a slot, and only the one it goes to clear. -/
theorem clear_of_freed (hstep : pendingStep s e = some s') {i : Fin (k + 1)}
    (huse : (s.pending i).inUse = true) (hfree : (s'.pending i).inUse = false) :
    ∃ t, e = .clear t ∧ (s.flush t).toClear = some i := by
  have hsame : s'.pending i ≠ s.pending i := by
    intro heq
    rw [heq, huse] at hfree
    cases hfree
  cases e with
  | store msg frame =>
      simp only [pendingStep] at hstep
      split at hstep
      · cases hstep
        exact absurd rfl hsame
      · cases hstep
        dsimp only at hfree
        rw [Function.update_apply] at hfree
        split_ifs at hfree
        rw [huse] at hfree
        cases hfree
  | copy t filter =>
      simp only [pendingStep] at hstep
      split at hstep <;> cases hstep
      exact absurd rfl hsame
  | send t routes sent =>
      simp only [pendingStep] at hstep
      split at hstep <;> cases hstep
      exact absurd rfl hsame
  | clear t =>
      refine ⟨t, rfl, ?_⟩
      simp only [pendingStep] at hstep
      split at hstep
      · next rest j ht =>
          cases hstep
          rw [ht]
          by_contra hne
          have hij : i ≠ j := fun hij ↦ hne (hij ▸ rfl)
          exact hsame (Function.update_of_ne hij _ _)
      · cases hstep

/-- In every interleaving of stores and flushes: as long as what a flush sends is still in its
slot, and stays there until the slot is cleared, a slot is cleared only by a flush that has
sent the very message in it. -/
theorem pending_cleared_sent
    (h : Reach (pendingSystem k T) Unreplaced (.start k T) (.start k T) s n)
    (hstep : pendingStep s e = some s') : ClearedSent s n e s' := by
  have hinv : PendingInv s n :=
    h.invariant pendingInv_start fun _ hI hallowed hs ↦ pendingInv_step hI hallowed hs
  intro i huse hfree
  obtain ⟨t, rfl, hclear⟩ := clear_of_freed hstep huse hfree
  obtain ⟨hstamp, htaken⟩ := hinv.clear t i hclear
  exact ⟨t, rfl, hstamp, htaken huse⟩

/-! ## A message that is cleared unsent -/

namespace PendingSample

/-- The QoS 1 message number `seq` of this broker. -/
def message (seq : UInt16) : P2pPublishMsg := ⟨fun _ ↦ 1, seq, [0x61], [0x78], 1, 0⟩

def store (seq : UInt16) : PendingStep (Fin 2) := .store (message seq) [0x01]

/-- The eight slots are filled, thread 0 copies them, and a ninth message takes the first. -/
def replaced : List (PendingStep (Fin 2)) :=
  [store 1, store 2, store 3, store 4, store 5, store 6, store 7, store 8, .copy 0 none, store 9,
    .send 0 1 1]

def system : System (PendingState 7 (Fin 2)) (PendingStep (Fin 2)) (PendingNotes 7 (Fin 2)) :=
  pendingSystem 7 (Fin 2)

def run (es : List (PendingStep (Fin 2))) :
    Option (PendingState 7 (Fin 2) × PendingNotes 7 (Fin 2)) :=
  Observer.run system (.start 7 (Fin 2), .start 7 (Fin 2)) es

end PendingSample

open PendingSample

/-- One message is stored, copied, and taken by a next hop. -/
theorem pending_cleared_sent_one : ∃ s n s',
    run [store 1, .copy 0 none, .send 0 1 1] = some (s, n) ∧
    pendingStep s (.clear 0) = some s' ∧ (s.pending 0).inUse = true ∧
    (s'.pending 0).inUse = false ∧ ClearedSent s n (.clear 0) s' := by
  have hreach : Reach system Unreplaced (.start 7 (Fin 2)) (.start 7 (Fin 2)) _ _ :=
    ((Reach.start.step (e := store 1) (fun _ _ _ h ↦ nomatch h) rfl).step
      (e := .copy 0 none) trivial rfl).step (e := .send 0 1 1) (fun _ e he ↦ by cases he; rfl) rfl
  exact ⟨_, _, _, rfl, rfl, rfl, rfl, pending_cleared_sent hreach rfl⟩

/-- The flush has sent the message that was in the first slot when it copied it, and then
clears the one that took its place and that nobody has sent. -/
theorem replaced_cleared_unsent : ∃ s n s', run replaced = some (s, n) ∧
    Reach system (fun _ _ _ ↦ True) (.start 7 (Fin 2)) (.start 7 (Fin 2)) s n ∧
    pendingStep s (.clear 0) = some s' ∧ (s.pending 0).msg.seq = 9 ∧
    (∀ x ∈ n.taken, x.2.2.msg.seq ≠ 9) ∧ ¬ ClearedSent s n (.clear 0) s' := by
  have hrun : ((run replaced).bind fun r ↦ (pendingStep r.1 (.clear 0)).map fun s' ↦
      decide ((r.1.pending 0).msg.seq = 9 ∧ (∀ x ∈ r.2.taken, x.2.2.msg.seq ≠ 9) ∧
        (r.1.pending 0).inUse = true ∧ (s'.pending 0).inUse = false)) = some true := by
    decide +kernel
  obtain ⟨⟨s, n⟩, hs, hrun⟩ := Option.bind_eq_some_iff.mp hrun
  obtain ⟨s', hs', hfinal⟩ := Option.map_eq_some_iff.mp hrun
  obtain ⟨hseq, hunsent, huse, hfree⟩ := of_decide_eq_true hfinal
  refine ⟨s, n, s', hs, Reach.start.run (fun _ _ _ _ ↦ trivial) hs, hs', hseq, hunsent,
    fun hsent ↦ ?_⟩
  obtain ⟨t, -, -, htaken⟩ := hsent 0 huse hfree
  exact hunsent _ htaken hseq

end MqttBroker
