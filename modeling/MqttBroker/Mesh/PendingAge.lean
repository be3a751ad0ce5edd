import MqttBroker.Mesh.PendingQos
import MqttBroker.Mesh.Seen

/-!
# Which waiting publish is replaced

Stores and flushes of the table `pending_qos`, one call after another.  The
messages are numbered as they are stored, so that a smaller number is an older
message.  A full table gives up the message in slot 0.
-/

namespace MqttBroker

open Observer

variable {k : ℕ}

/-! ## The code -/

/-- `pending_qos_store` -/
def pendingQosStore (pending : PendingQos k) (msg : P2pPublishMsg) (frame : Bytes) :
    PendingQos k :=
  match pendingQosSlot pending msg frame with
  | none => pending
  | some i => Function.update pending i ⟨msg, frame, true⟩

/-- A slot after `in_use = 0`. -/
def PendingPublish.freed (p : PendingPublish) : PendingPublish := { p with inUse := false }

@[simp] theorem PendingPublish.freed_freed (p : PendingPublish) : p.freed.freed = p.freed := rfl

/-- The second loop of `flush_pending_qos_for_filter`, for one copy; `outcome` has the routes
and the next hops that took it. -/
def clearIfTaken (outcome : Fin (k + 1) → ℕ × ℕ) (pending : PendingQos k)
    (e : Fin (k + 1) × PendingPublish) : PendingQos k :=
  if Taken (outcome e.1).1 (outcome e.1).2 then
    Function.update pending e.1 (pending e.1).freed
  else pending

/-- `flush_pending_qos_for_filter` -/
def flushPendingQosForFilter (pending : PendingQos k) (filter : Option CStr)
    (outcome : Fin (k + 1) → ℕ × ℕ) : PendingQos k :=
  (pendingBatch pending filter).foldl (clearIfTaken outcome) pending

inductive PendingCall (k : ℕ) where
  | store (msg : P2pPublishMsg) (frame : Bytes)
  | flush (filter : Option CStr) (outcome : Fin (k + 1) → ℕ × ℕ)

def pendingCall (s : PendingQos k) : PendingCall k → PendingQos k
  | .store msg frame => pendingQosStore s msg frame
  | .flush filter outcome => flushPendingQosForFilter s filter outcome

/-- The table before the first call. -/
def noPending (k : ℕ) : PendingQos k := fun _ ↦ ⟨⟨fun _ ↦ 0, 0, [], [], 0, 0⟩, [], false⟩

/-! ## The age of a message -/

/-- Every message that is stored gets a number. -/
structure AgeNotes (k : ℕ) where
  stores : ℕ
  /-- the number of the message in each slot -/
  stamp : Fin (k + 1) → ℕ
  /-- the slots whose messages were waiting already when slot 0 was written -/
  older : Fin (k + 1) → Bool

def AgeNotes.start (k : ℕ) : AgeNotes k := ⟨0, fun _ ↦ 0, fun _ ↦ false⟩

def ageNote (s : PendingQos k) (e : PendingCall k) (n : AgeNotes k) : AgeNotes k :=
  match e with
  | .store msg frame =>
      match pendingQosSlot s msg frame with
      | none => n
      | some i =>
          ⟨n.stores + 1, Function.update n.stamp i (n.stores + 1),
            if i = 0 then fun j ↦ j ≠ 0 && (s j).inUse else Function.update n.older i false⟩
  | .flush _ _ => n

def pendingCalls (k : ℕ) : System (PendingQos k) (PendingCall k) (AgeNotes k) where
  step s e := some (pendingCall s e)
  note := ageNote

/-- No two entries have one key. -/
def KeysApart (s : PendingQos k) : Prop :=
  ∀ i j, (s i).inUse = true → (s j).inUse = true → (s i).msg.key = (s j).msg.key → i = j

/-- The call leaves one entry for a key, a full table gives up the oldest message for a new one,
and nothing else is lost that was not flushed. -/
structure LosesOldest (s : PendingQos k) (n : AgeNotes k) (e : PendingCall k) : Prop where
  keys : KeysApart (pendingCall s e)
  /-- a message is lost to a new one only where the table is full, and it is the oldest -/
  store : ∀ msg frame, e = .store msg frame → ∀ i, (s i).inUse = true → pendingCall s e i ≠ s i →
    (∀ j, (s j).inUse = true) ∧ (∀ j, n.stamp i ≤ n.stamp j) ∧
      pendingCall s e = Function.update s i ⟨msg, frame, true⟩
  /-- a flush gives up what it has sent -/
  flush : ∀ filter outcome, e = .flush filter outcome → ∀ i, (s i).inUse = true →
    pendingCall s e i ≠ s i → Taken (outcome i).1 (outcome i).2 ∧
      (filter.all fun f ↦ topicMatchLocal f (s i).msg.topic) = true ∧
        pendingCall s e i = (s i).freed

/-- The message is new, and `pending_qos_store` has no free slot for it. -/
structure NoRoomFor (s : PendingQos k) (msg : P2pPublishMsg) (frame : Bytes) : Prop where
  frame_ne : frame ≠ []
  qos_ne : msg.qos ≠ 0
  full : ∀ i, (s i).inUse = true
  new : ∀ i, (s i).msg.key ≠ msg.key

/-- Where there is no room, everything that was waiting when the message in slot 0 was stored
has been flushed since. -/
def OthersFlushed (s : PendingQos k) (n : AgeNotes k) : PendingCall k → Prop
  | .store msg frame => NoRoomFor s msg frame → ∀ i, n.older i = false
  | .flush _ _ => True

variable {s : PendingQos k} {msg : P2pPublishMsg} {frame : Bytes} {i : Fin (k + 1)}

/-! ## The slot of a store -/

theorem stored_eq_false_iff : ((List.finRange (k + 1)).any fun i ↦ (s i).inUse &&
    (s i).msg.seq = msg.seq && (s i).msg.originId = msg.originId) = false ↔
      ∀ i, (s i).inUse = true → (s i).msg.key ≠ msg.key := by
  rw [List.any_eq_false]
  constructor
  · intro h i huse hkey
    obtain ⟨horigin, hseq⟩ := SeenMsg.mk.inj hkey
    exact h i (List.mem_finRange i) (by simp [huse, horigin, hseq])
  · intro h i _ hsame
    simp only [Bool.and_eq_true, decide_eq_true_eq] at hsame
    exact h i hsame.1.1 (congrArg₂ SeenMsg.mk hsame.2 hsame.1.2)

/-- A message goes into a free slot, or into slot 0 of a full table. -/
theorem pendingQosSlot_spec (h : pendingQosSlot s msg frame = some i) :
    (∀ j, (s j).inUse = true → (s j).msg.key ≠ msg.key) ∧
      ((s i).inUse = false ∨ i = 0 ∧ ∀ j, (s j).inUse = true) := by
  unfold pendingQosSlot at h
  dsimp only at h
  split_ifs at h with hbad hsame
  refine ⟨stored_eq_false_iff.mp (by simpa using hsame), ?_⟩
  cases hfree : (List.finRange (k + 1)).find? fun i ↦ !(s i).inUse with
  | none =>
      rw [hfree] at h
      cases h
      rw [List.find?_eq_none] at hfree
      exact Or.inr ⟨rfl, fun j ↦ by simpa using hfree j (List.mem_finRange j)⟩
  | some j =>
      rw [hfree] at h
      cases h
      have hj := List.find?_some hfree
      exact Or.inl (by simpa using hj)

theorem NoRoomFor.slot_eq (h : NoRoomFor s msg frame) : pendingQosSlot s msg frame = some 0 := by
  have hnew := stored_eq_false_iff.mpr fun i _ ↦ h.new i
  have hfull : ((List.finRange (k + 1)).find? fun i ↦ !(s i).inUse) = none := by
    rw [List.find?_eq_none]
    intro i _
    simp [h.full i]
  unfold pendingQosSlot
  dsimp only
  rw [if_neg (not_or.mpr ⟨h.frame_ne, h.qos_ne⟩), if_neg (by rw [hnew]; exact Bool.false_ne_true),
    hfull]
  rfl

/-! ## The slots after a flush -/

theorem foldl_clearIfTaken (outcome : Fin (k + 1) → ℕ × ℕ)
    (batch : List (Fin (k + 1) × PendingPublish)) (s : PendingQos k) (i : Fin (k + 1)) :
    batch.foldl (clearIfTaken outcome) s i =
      if i ∈ batch.map Prod.fst ∧ Taken (outcome i).1 (outcome i).2 then
        (s i).freed
      else s i := by
  induction batch generalizing s with
  | nil => simp
  | cons e batch ih =>
      rw [List.foldl_cons, ih, List.map_cons, clearIfTaken]
      by_cases hi : i = e.1
      · subst hi
        by_cases htaken : Taken (outcome e.1).1 (outcome e.1).2
        · simp [htaken]
        · simp [htaken]
      · have hsame : (if Taken (outcome e.1).1 (outcome e.1).2 then
            Function.update s e.1 (s e.1).freed else s) i = s i := by
          split_ifs
          · exact Function.update_of_ne hi _ _
          · rfl
        rw [hsame]
        simp only [List.mem_cons, hi, false_or]

/-- A flush gives up the messages that match and that a next hop has taken. -/
theorem flush_apply (filter : Option CStr) (outcome : Fin (k + 1) → ℕ × ℕ) (i : Fin (k + 1)) :
    flushPendingQosForFilter s filter outcome i =
      if ((s i).inUse = true ∧ (filter.all fun f ↦ topicMatchLocal f (s i).msg.topic) = true) ∧
          Taken (outcome i).1 (outcome i).2 then
        (s i).freed
      else s i := by
  have hmem : i ∈ (pendingBatch s filter).map Prod.fst ↔ (s i).inUse = true ∧
      (filter.all fun f ↦ topicMatchLocal f (s i).msg.topic) = true := by
    unfold pendingBatch
    rw [List.map_map]
    simp
  rw [flushPendingQosForFilter, foldl_clearIfTaken]
  simp only [hmem]

theorem flush_kept {filter : Option CStr} {outcome : Fin (k + 1) → ℕ × ℕ}
    (h : (flushPendingQosForFilter s filter outcome i).inUse = true) :
    flushPendingQosForFilter s filter outcome i = s i := by
  rw [flush_apply] at h ⊢
  split_ifs at h ⊢
  · cases h
  · rfl

/-! ## The invariant -/

/-- The messages in the table are numbered by their age, and have keys of their own. -/
structure AgeInv (s : PendingQos k) (n : AgeNotes k) : Prop where
  keys : KeysApart s
  stamp_le : ∀ i, (s i).inUse = true → n.stamp i ≤ n.stores
  older : (s 0).inUse = true → ∀ i, (s i).inUse = true →
    (n.older i = true ↔ n.stamp i < n.stamp 0)

variable {n : AgeNotes k}

theorem ageInv_start : AgeInv (noPending k) (.start k) where
  keys _ _ h := nomatch h
  stamp_le _ h := nomatch h
  older h := nomatch h

theorem KeysApart.update (h : KeysApart s) (hnew : ∀ j, (s j).inUse = true →
    (s j).msg.key ≠ msg.key) : KeysApart (Function.update s i ⟨msg, frame, true⟩) := by
  intro a b ha hb hkey
  by_cases hai : a = i
  · subst hai
    by_contra hba
    rw [Function.update_of_ne (Ne.symm hba)] at hb hkey
    rw [Function.update_self] at hkey
    exact hnew b hb hkey.symm
  · rw [Function.update_of_ne hai] at ha hkey
    by_cases hbi : b = i
    · subst hbi
      rw [Function.update_self] at hkey
      exact absurd hkey (hnew a ha)
    · rw [Function.update_of_ne hbi] at hb hkey
      exact h a b ha hb hkey

theorem AgeInv.store (h : AgeInv s n) (hnew : ∀ j, (s j).inUse = true →
    (s j).msg.key ≠ msg.key) (i : Fin (k + 1)) :
    AgeInv (Function.update s i ⟨msg, frame, true⟩)
      ⟨n.stores + 1, Function.update n.stamp i (n.stores + 1),
        if i = 0 then fun j ↦ j ≠ 0 && (s j).inUse else Function.update n.older i false⟩ where
  keys := h.keys.update hnew
  stamp_le j hj := by
    by_cases hji : j = i
    · subst hji
      exact (Function.update_self ..).le
    · rw [Function.update_of_ne hji] at hj
      dsimp only
      rw [Function.update_of_ne hji]
      exact (h.stamp_le j hj).trans (Nat.le_succ _)
  older hzero j hj := by
    dsimp only
    by_cases hi : i = 0
    · -- everything else is older than what slot 0 gets
      subst hi
      rw [if_pos rfl, Function.update_self]
      by_cases hj0 : j = 0
      · subst hj0
        simp
      · rw [Function.update_of_ne hj0] at hj ⊢
        have hle := h.stamp_le j hj
        simp only [hj0, hj, ne_eq, not_false_eq_true, decide_true, Bool.and_self, true_iff]
        omega
    · rw [if_neg hi, Function.update_of_ne (Ne.symm hi)]
      rw [Function.update_of_ne (Ne.symm hi)] at hzero
      by_cases hji : j = i
      · subst hji
        have hle := h.stamp_le 0 hzero
        rw [Function.update_self, Function.update_self]
        simp only [Bool.false_eq_true, false_iff]
        omega
      · rw [Function.update_of_ne hji] at hj ⊢
        rw [Function.update_of_ne hji]
        exact h.older hzero j hj

theorem AgeInv.flush (h : AgeInv s n) (filter : Option CStr) (outcome : Fin (k + 1) → ℕ × ℕ) :
    AgeInv (flushPendingQosForFilter s filter outcome) n where
  keys i j hi hj hkey := by
    have hsi := flush_kept hi
    have hsj := flush_kept hj
    rw [hsi] at hi hkey
    rw [hsj] at hj hkey
    exact h.keys i j hi hj hkey
  stamp_le i hi := h.stamp_le i (flush_kept hi ▸ hi)
  older hzero i hi := h.older (flush_kept hzero ▸ hzero) i (flush_kept hi ▸ hi)

theorem ageInv_call (h : AgeInv s n) (e : PendingCall k) :
    AgeInv (pendingCall s e) (ageNote s e n) := by
  cases e with
  | store msg frame =>
      rw [pendingCall, pendingQosStore, ageNote]
      cases hslot : pendingQosSlot s msg frame with
      | none => exact h
      | some i => exact h.store (pendingQosSlot_spec hslot).1 i
  | flush filter outcome => exact h.flush filter outcome

/-! ## What a full table loses -/

/-- The message in slot 0 is the oldest exactly when no older one is left. -/
theorem AgeInv.oldest_iff (h : AgeInv s n) (hfull : ∀ i, (s i).inUse = true) :
    (∀ i, n.stamp 0 ≤ n.stamp i) ↔ ∀ i, n.older i = false := by
  refine forall_congr' fun i ↦ ?_
  rw [← not_lt, ← h.older (hfull 0) i (hfull i), Bool.not_eq_true]

theorem NoRoomFor.replaced (h : NoRoomFor s msg frame) :
    pendingCall s (.store msg frame) 0 ≠ s 0 := by
  rw [pendingCall, pendingQosStore, h.slot_eq]
  dsimp only
  rw [Function.update_self]
  exact fun heq ↦ h.new 0 (congrArg (fun p ↦ p.msg.key) heq).symm

theorem flush_changed {filter : Option CStr} {outcome : Fin (k + 1) → ℕ × ℕ}
    (h : flushPendingQosForFilter s filter outcome i ≠ s i) :
    Taken (outcome i).1 (outcome i).2 ∧
      (filter.all fun f ↦ topicMatchLocal f (s i).msg.topic) = true ∧
        flushPendingQosForFilter s filter outcome i = (s i).freed := by
  rw [flush_apply] at h ⊢
  split_ifs at h ⊢ with htaken
  · exact ⟨htaken.2, htaken.1.2, rfl⟩
  · exact absurd rfl h

theorem losesOldest_iff (h : AgeInv s n) (e : PendingCall k) :
    LosesOldest s n e ↔ OthersFlushed s n e := by
  constructor
  · intro hloses
    cases e with
    | store msg frame =>
        intro hroom
        have holdest := (hloses.store msg frame rfl 0 (hroom.full 0) hroom.replaced).2.1
        exact (h.oldest_iff hroom.full).mp holdest
    | flush filter outcome => exact trivial
  · intro hothers
    refine ⟨(ageInv_call h e).keys, ?_, ?_⟩
    · rintro msg frame rfl i huse hne
      rw [pendingCall, pendingQosStore] at hne ⊢
      cases hslot : pendingQosSlot s msg frame with
      | none =>
          rw [hslot] at hne
          exact absurd rfl hne
      | some j =>
          rw [hslot] at hne
          dsimp only at hne
          have hij : i = j := by
            by_contra hij
            exact hne (Function.update_of_ne hij _ _)
          subst hij
          obtain ⟨hnew, hfree | ⟨rfl, hfull⟩⟩ := pendingQosSlot_spec hslot
          · rw [huse] at hfree
            cases hfree
          · have hsome : ¬ (frame = [] ∨ msg.qos = 0) := by
              intro hbad
              rw [pendingQosSlot, if_pos hbad] at hslot
              cases hslot
            have hroom : NoRoomFor s msg frame :=
              ⟨fun hf ↦ hsome (.inl hf), fun hq ↦ hsome (.inr hq), hfull, fun i ↦ hnew i (hfull i)⟩
            exact ⟨hfull, (h.oldest_iff hfull).mpr (hothers hroom), rfl⟩
    · rintro filter outcome rfl i - hne
      exact flush_changed hne

/-- In every sequence of stores and flushes: only the oldest message is ever given up unsent
exactly when each time that the table is full, the messages that are older than the one in
slot 0 have been flushed. -/
theorem only_oldest_lost_iff (calls : List (PendingCall k)) :
    Along (pendingCalls k) LosesOldest (noPending k) (.start k) calls ↔
      Along (pendingCalls k) OthersFlushed (noPending k) (.start k) calls := by
  refine along_congr (I := AgeInv) (fun h hstep ↦ ?_) (fun e h ↦ losesOldest_iff h e)
    ageInv_start calls
  cases hstep
  exact ageInv_call h _

namespace PendingSample

/-- Nine messages are stored. -/
def nine : List (PendingCall 7) :=
  [1, 2, 3, 4, 5, 6, 7, 8, 9].map fun seq ↦ .store (message seq) [0x01]

/-- The tenth message takes the place of the ninth, and the second has waited longest. -/
theorem newest_replaced : ∃ s n, Observer.run (pendingCalls 7) (noPending 7, .start 7) nine =
      some (s, n) ∧ n.stamp 0 = 9 ∧ n.stamp 1 = 2 ∧ (s 0).msg.seq = 9 ∧
    (pendingCall s (.store (message 10) [0x01]) 0).msg.seq = 10 ∧
    ¬ LosesOldest s n (.store (message 10) [0x01]) := by
  have hrun : ((Observer.run (pendingCalls 7) (noPending 7, .start 7) nine).map fun r ↦
      decide (r.2.stamp 0 = 9 ∧ r.2.stamp 1 = 2 ∧ (r.1 0).inUse = true ∧ (r.1 0).msg.seq = 9 ∧
        (pendingCall r.1 (.store (message 10) [0x01]) 0).msg.seq = 10)) = some true := by
    decide +kernel
  obtain ⟨⟨s, n⟩, hs, hfinal⟩ := Option.map_eq_some_iff.mp hrun
  obtain ⟨hfirst, hsecond, huse, hold, hnew⟩ := of_decide_eq_true hfinal
  refine ⟨s, n, hs, hfirst, hsecond, hold, hnew, fun hloses ↦ ?_⟩
  have hchanged : pendingCall s (.store (message 10) [0x01]) 0 ≠ s 0 := by
    intro heq
    rw [heq, hold] at hnew
    cases hnew
  have holdest := (hloses.store _ _ rfl 0 huse hchanged).2.1 1
  dsimp only at hfirst hsecond
  omega

end PendingSample

/-! ## A flush as it takes its locks -/

/-- The steps in which a thread sends and clears its copies. -/
def sendSteps {T : Type} (t : T) (outcome : Fin (k + 1) → ℕ × ℕ)
    (batch : List (Fin (k + 1) × PendingPublish)) : List (PendingStep T) :=
  batch.flatMap fun e ↦ .send t (outcome e.1).1 (outcome e.1).2 ::
    if Taken (outcome e.1).1 (outcome e.1).2 then [.clear t] else []

section Steps

variable {T : Type} [DecidableEq T] {s : PendingState k T} {t : T}
  {e : Fin (k + 1) × PendingPublish} {rest : List (Fin (k + 1) × PendingPublish)}

theorem pendingStep_send (ht : s.flush t = ⟨e :: rest, none⟩) (routes sent : ℕ) :
    pendingStep s (.send t routes sent) = some { s with
      flush := Function.update s.flush t
        ⟨rest, if Taken routes sent then some e.1 else none⟩ } := by
  rw [pendingStep, ht]

theorem pendingStep_clear (ht : s.flush t = ⟨rest, some i⟩) : pendingStep s (.clear t) =
    some ⟨Function.update s.pending i (s.pending i).freed,
      Function.update s.flush t ⟨rest, none⟩⟩ := by
  rw [pendingStep, ht]
  rfl

/-- One copy is sent, and its slot is cleared. -/
theorem foldlM_sendStep (ht : s.flush t = ⟨e :: rest, none⟩) (outcome : Fin (k + 1) → ℕ × ℕ) :
    (sendSteps t outcome [e]).foldlM pendingStep s = some
      ⟨clearIfTaken outcome s.pending e, Function.update s.flush t ⟨rest, none⟩⟩ := by
  rw [sendSteps, List.flatMap_cons, List.flatMap_nil, List.append_nil, List.foldlM_cons,
    pendingStep_send ht]
  by_cases htaken : Taken (outcome e.1).1 (outcome e.1).2
  · simp only [if_pos htaken, Option.bind_eq_bind, Option.bind_some, List.foldlM_cons,
      List.foldlM_nil, clearIfTaken]
    rw [pendingStep_clear (Function.update_self ..)]
    dsimp only
    rw [Function.update_idem]
    rfl
  · simp only [if_neg htaken, Option.bind_eq_bind, Option.bind_some, List.foldlM_nil, clearIfTaken]
    rfl

theorem foldlM_sendSteps (outcome : Fin (k + 1) → ℕ × ℕ)
    (ht : s.flush t = ⟨rest, none⟩) : (sendSteps t outcome rest).foldlM pendingStep s = some
      ⟨rest.foldl (clearIfTaken outcome) s.pending, Function.update s.flush t ⟨[], none⟩⟩ := by
  induction rest generalizing s with
  | nil =>
      rw [← ht, Function.update_eq_self]
      rfl
  | cons e rest ih =>
      have hsplit : sendSteps t outcome (e :: rest) =
          sendSteps t outcome [e] ++ sendSteps t outcome rest := by
        simp [sendSteps]
      rw [hsplit, List.foldlM_append, foldlM_sendStep ht, Option.bind_eq_bind, Option.bind_some,
        ih (Function.update_self ..), Function.update_idem]
      rfl

end Steps

/-- A flush that runs alone comes to what its steps under the lock come to. -/
theorem flush_steps {T : Type} [DecidableEq T] (s : PendingState k T) (t : T)
    (ht : s.flush t = ⟨[], none⟩) (filter : Option CStr) (outcome : Fin (k + 1) → ℕ × ℕ) :
    (.copy t filter :: sendSteps t outcome (pendingBatch s.pending filter)).foldlM pendingStep s =
      some { s with pending := flushPendingQosForFilter s.pending filter outcome } := by
  rw [List.foldlM_cons, pendingStep, ht]
  dsimp only
  rw [Option.bind_eq_bind, Option.bind_some, foldlM_sendSteps outcome (Function.update_self ..),
    Function.update_idem, ← ht, Function.update_eq_self]
  rfl

end MqttBroker
