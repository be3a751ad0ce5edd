import MqttBroker.Topic.Overlap

/-!
# Publishing to offline sessions

What `session_offline_publish` tries to enqueue, and what it counts.
-/

namespace MqttBroker

open FirstMatch

variable {cfg : Config}

/-! ## One session -/

namespace Session

variable (s : Session) (pub : MqttPublish) (matchFn : CStr → CStr → Bool)

/-- A persistent session whose client is away. -/
def Away : Prop := s.inUse = true ∧ s.offline = true

/-- The stored filters that match. -/
def matchingFilters (topic : CStr) : Set (Fin SESSION_SUB_MAX) :=
  {j | j.val < s.subCount ∧ matchFn (s.subFilters j) topic = true}

def grants (topic : CStr) : Set ℕ :=
  (fun j ↦ (s.subQos j).toNat) '' s.matchingFilters matchFn topic

/-- The packet id that the session takes. -/
def takenId : UInt16 := if s.nextPacketId = 0 then 1 else s.nextPacketId

/-- The message that is handed to `session_enqueue` for the session. -/
def enqueueCall : Option MqttPublish :=
  if !s.inUse ∨ !s.offline then none
  else
    match s.firstMatch pub.topic matchFn with
    | none => none
    | some j =>
        let qos := if pub.qos < s.subQos j then pub.qos else s.subQos j
        if 0 < qos then some { pub with qos := qos, packetId := s.takenId } else none

/-- The call of `session_enqueue`, after the packet id was taken. -/
def enqueueResult (q : MqttPublish) : Session × ℤ :=
  enqueue { s with nextPacketId := q.packetId + 1 } q q.packetId

/-- The queue of the session takes the message. -/
def accepts : Bool :=
  match s.enqueueCall pub matchFn with
  | none => false
  | some q => (s.enqueueResult q).2 = 0

/-- The queue has a free entry. -/
def HasRoom : Prop := ∃ i, (s.queue i).inUse = false

variable {s pub matchFn}

theorem takenId_ne_zero : s.takenId ≠ 0 := by
  unfold takenId
  split_ifs with h
  · decide
  · exact h

theorem skipped_iff : (!s.inUse) = true ∨ (!s.offline) = true ↔ ¬ s.Away := by
  simp only [Away, Bool.not_eq_true', not_and_or, Bool.not_eq_true]

theorem offlinePublishOne_eq : s.offlinePublishOne pub matchFn =
    match s.enqueueCall pub matchFn with
    | none => (s, 0)
    | some q => ((s.enqueueResult q).1, 1) := by
  unfold offlinePublishOne enqueueCall
  by_cases hskip : (!s.inUse) = true ∨ (!s.offline) = true
  · rw [if_pos hskip, if_pos hskip]
  · rw [if_neg hskip, if_neg hskip]
    cases s.firstMatch pub.topic matchFn with
    | none => rfl
    | some j =>
        dsimp only
        generalize (if pub.qos < s.subQos j then pub.qos else s.subQos j) = qos
        by_cases hpos : 0 < qos
        · rw [if_pos hpos, if_pos hpos]
          rfl
        · rw [if_neg hpos, if_neg hpos]

theorem enqueue_accepted_iff {q : MqttPublish} : (s.enqueueResult q).2 = 0 ↔ s.HasRoom := by
  unfold enqueueResult enqueue HasRoom
  dsimp only
  cases hfree : (List.finRange SESSION_QUEUE_MAX).find? fun i ↦ !(s.queue i).inUse with
  | none => simpa using hfree
  | some i => simpa using ⟨i, by simpa using List.find?_some hfree⟩

theorem firstMatch_mem {topic : CStr} {j : Fin SESSION_SUB_MAX}
    (h : s.firstMatch topic matchFn = some j) : j ∈ s.matchingFilters matchFn topic := by
  simpa [matchingFilters] using List.find?_some h

theorem exists_firstMatch {topic : CStr} {k : Fin SESSION_SUB_MAX}
    (h : k ∈ s.matchingFilters matchFn topic) : ∃ j, s.firstMatch topic matchFn = some j :=
  Option.isSome_iff_exists.mp
    (List.find?_isSome.mpr ⟨k, by simp, by simpa [matchingFilters] using h⟩)

/-- A session away is offered the message at the QoS that its first matching filter grants,
if that is not 0. -/
theorem enqueueCall_eq_some_iff {q : MqttPublish} : s.enqueueCall pub matchFn = some q ↔
    s.Away ∧ ∃ j, s.firstMatch pub.topic matchFn = some j ∧
      0 < min pub.qos.toNat (s.subQos j).toNat ∧
      q = { pub with
        qos := if pub.qos < s.subQos j then pub.qos else s.subQos j
        packetId := s.takenId } := by
  unfold enqueueCall
  by_cases hskip : (!s.inUse) = true ∨ (!s.offline) = true
  · rw [if_pos hskip]
    simp [skipped_iff.mp hskip]
  · rw [if_neg hskip]
    have haway : s.Away := not_not.mp (mt skipped_iff.mpr hskip)
    cases hfirst : s.firstMatch pub.topic matchFn with
    | none => simp
    | some j =>
        have hgrant := granted_toNat pub.qos (s.subQos j)
        simp only [haway, true_and, Option.some.injEq, exists_eq_left', ← hgrant]
        generalize (if pub.qos < s.subQos j then pub.qos else s.subQos j) = qos
        rw [← UInt8.toNat_zero, ← UInt8.lt_iff_toNat_lt]
        split_ifs with hpos
        · simp [hpos, eq_comm]
        · simp [hpos]

theorem accepts_iff : s.accepts pub matchFn = true ↔
    (∃ q, s.enqueueCall pub matchFn = some q) ∧ s.HasRoom := by
  unfold accepts
  cases s.enqueueCall pub matchFn with
  | none => simp
  | some q => simpa using enqueue_accepted_iff

end Session

/-! ## The pool -/

open Session

variable {sessions : SessionSlot cfg → Session} {pub : MqttPublish}
  {matchFn : CStr → CStr → Bool}

/-- The calls of `session_enqueue` and the return value are right: a session away gets the
message once if any of its filters grants more than QoS 0, at the best QoS, and those whose
queue took it are counted. -/
structure OfflineRight (sessions : SessionSlot cfg → Session) (pub : MqttPublish)
    (matchFn : CStr → CStr → Bool) (count : ℕ) : Prop where
  tried : ∀ i, (sessions i).Away → ((∃ q, (sessions i).enqueueCall pub matchFn = some q) ↔
    ∃ best, IsGreatest ((sessions i).grants matchFn pub.topic) best ∧ 0 < best)
  message : ∀ i q, (sessions i).enqueueCall pub matchFn = some q →
    (∃ qos id, q = { pub with qos := qos, packetId := id }) ∧
      Best pub.qos.toNat ((sessions i).grants matchFn pub.topic) q.qos.toNat ∧ q.packetId ≠ 0
  counted : count = (Finset.univ.filter fun i ↦ (sessions i).accepts pub matchFn).card

/-- For every session away the first matching filter grants the best QoS, and if this is not 0
the queue has room. -/
def OfflineReady (sessions : SessionSlot cfg → Session) (pub : MqttPublish)
    (matchFn : CStr → CStr → Bool) : Prop :=
  ∀ i j, (sessions i).Away → (sessions i).firstMatch pub.topic matchFn = some j →
    (∀ k ∈ (sessions i).matchingFilters matchFn pub.topic,
      min pub.qos.toNat ((sessions i).subQos k).toNat ≤
        min pub.qos.toNat ((sessions i).subQos j).toNat) ∧
    (0 < min pub.qos.toNat ((sessions i).subQos j).toNat → (sessions i).HasRoom)

theorem sum_offlinePublishOne : ∑ i, ((sessions i).offlinePublishOne pub matchFn).2 =
    (Finset.univ.filter fun i ↦ ((sessions i).enqueueCall pub matchFn).isSome).card := by
  rw [Finset.card_filter]
  refine Finset.sum_congr rfl fun i _ ↦ ?_
  rw [offlinePublishOne_eq]
  cases (sessions i).enqueueCall pub matchFn <;> rfl

/-- All attempts are counted, so the count is right if none meets a full queue. -/
theorem counted_iff : ∑ i, ((sessions i).offlinePublishOne pub matchFn).2 =
      (Finset.univ.filter fun i ↦ (sessions i).accepts pub matchFn).card ↔
    ∀ i q, (sessions i).enqueueCall pub matchFn = some q → (sessions i).HasRoom := by
  have hsub : (Finset.univ.filter fun i ↦ (sessions i).accepts pub matchFn) ⊆
      Finset.univ.filter fun i ↦ ((sessions i).enqueueCall pub matchFn).isSome := by
    intro i hi
    simp only [Finset.mem_filter, Finset.mem_univ, true_and, accepts_iff] at hi ⊢
    exact Option.isSome_iff_exists.mpr hi.1
  rw [sum_offlinePublishOne]
  constructor
  · intro hcard i q hq
    have heq := Finset.eq_of_subset_of_card_le hsub hcard.le
    have hi : i ∈ Finset.univ.filter fun i ↦ ((sessions i).enqueueCall pub matchFn).isSome := by
      simp [hq]
    rw [← heq, Finset.mem_filter, accepts_iff] at hi
    exact hi.2.2
  · intro hroom
    refine congrArg Finset.card (Finset.Subset.antisymm (fun i hi ↦ ?_) hsub)
    simp only [Finset.mem_filter, Finset.mem_univ, true_and, accepts_iff] at hi ⊢
    obtain ⟨q, hq⟩ := Option.isSome_iff_exists.mp hi
    exact ⟨⟨q, hq⟩, hroom i q hq⟩

/-- With a message that is not of QoS 0, any grant above 0 is one above 0 up to its QoS. -/
theorem exists_best_iff (hq : pub.qos ≠ 0) {s : Session} {j : Fin SESSION_SUB_MAX}
    (hj : j ∈ s.matchingFilters matchFn pub.topic)
    (hbest : ∀ k ∈ s.matchingFilters matchFn pub.topic,
      min pub.qos.toNat (s.subQos k).toNat ≤ min pub.qos.toNat (s.subQos j).toNat) :
    (∃ best, IsGreatest (s.grants matchFn pub.topic) best ∧ 0 < best) ↔
      0 < min pub.qos.toNat (s.subQos j).toNat := by
  have hpos : 0 < pub.qos.toNat := Nat.pos_of_ne_zero fun h ↦ hq (UInt8.toNat_inj.mp h)
  obtain ⟨m, hm, heq⟩ := (best_iff (Set.toFinite _) hj).mpr hbest
  rw [heq]
  constructor
  · rintro ⟨best, hbest, h0⟩
    rw [hm.unique hbest]
    exact lt_min hpos h0
  · exact fun h0 ↦ ⟨m, hm, (lt_min_iff.mp h0).2⟩

theorem offlineRight_iff (hq : pub.qos ≠ 0) :
    OfflineRight sessions pub matchFn (∑ i, ((sessions i).offlinePublishOne pub matchFn).2) ↔
      OfflineReady sessions pub matchFn := by
  constructor
  · intro h i j haway hfirst
    have hj := firstMatch_mem hfirst
    have hcall : 0 < min pub.qos.toNat ((sessions i).subQos j).toNat →
        ∃ q, (sessions i).enqueueCall pub matchFn = some q ∧
          q.qos.toNat = min pub.qos.toNat ((sessions i).subQos j).toNat := fun hpos ↦
      ⟨_, enqueueCall_eq_some_iff.mpr ⟨haway, j, hfirst, hpos, rfl⟩, granted_toNat _ _⟩
    refine ⟨?_, fun hpos ↦ ?_⟩
    · rcases Nat.eq_zero_or_pos (min pub.qos.toNat ((sessions i).subQos j).toNat) with h0 | hpos
      · -- nothing was tried, so no filter grants anything
        have hnone : ¬ ∃ q, (sessions i).enqueueCall pub matchFn = some q := by
          rintro ⟨q, hcall⟩
          obtain ⟨-, k, hk, hpos, -⟩ := enqueueCall_eq_some_iff.mp hcall
          obtain rfl := Option.some.inj (hfirst.symm.trans hk)
          omega
        rw [h.tried i haway] at hnone
        obtain ⟨_, m, hm, -⟩ : ∃ q, Best pub.qos.toNat ((sessions i).grants matchFn pub.topic) q :=
          exists_best (Set.toFinite _) hj
        have hm0 : m = 0 := Nat.eq_zero_of_not_pos fun hpos ↦ hnone ⟨m, hm, hpos⟩
        intro k hk
        have hle := hm.2 (Set.mem_image_of_mem _ hk)
        omega
      · obtain ⟨q, hq, hqos⟩ := hcall hpos
        have hb := (h.message i q hq).2.1
        rw [hqos] at hb
        exact (best_iff (Set.toFinite _) hj).mp hb
    · obtain ⟨q, hq, -⟩ := hcall hpos
      exact counted_iff.mp h.counted i q hq
  · intro h
    refine ⟨fun i haway ↦ ?_, fun i q hcall ↦ ?_, counted_iff.mpr fun i q hcall ↦ ?_⟩
    · constructor
      · rintro ⟨q, hcall⟩
        obtain ⟨-, j, hfirst, hpos, -⟩ := enqueueCall_eq_some_iff.mp hcall
        exact (exists_best_iff hq (firstMatch_mem hfirst) (h i j haway hfirst).1).mpr hpos
      · rintro ⟨best, hbest, h0⟩
        obtain ⟨k, hk, -⟩ := hbest.1
        obtain ⟨j, hfirst⟩ := exists_firstMatch hk
        have hpos := (exists_best_iff hq (firstMatch_mem hfirst) (h i j haway hfirst).1).mp
          ⟨best, hbest, h0⟩
        exact ⟨_, enqueueCall_eq_some_iff.mpr ⟨haway, j, hfirst, hpos, rfl⟩⟩
    · obtain ⟨haway, j, hfirst, -, rfl⟩ := enqueueCall_eq_some_iff.mp hcall
      refine ⟨⟨_, _, rfl⟩, ?_, takenId_ne_zero⟩
      rw [granted_toNat]
      exact (best_iff (Set.toFinite _) (firstMatch_mem hfirst)).mpr (h i j haway hfirst).1
    · obtain ⟨haway, j, hfirst, hpos, -⟩ := enqueueCall_eq_some_iff.mp hcall
      exact (h i j haway hfirst).2 hpos

/-- The sessions of a pool; before it is allocated none is in use. -/
def poolSessions (pool : SessionPool cfg) : SessionSlot cfg → Session := pool.getD fun _ ↦ default

/-- `session_offline_publish` makes its calls of `session_enqueue` and returns the number of
them.  They are as they should be if and only if the first matching filter of each session is
as good as its others, and no queue that is needed is full. -/
theorem offline_publish_right (pool : SessionPool cfg) (pub : MqttPublish) (hq : pub.qos ≠ 0)
    (matchFn : CStr → CStr → Bool) :
    (sessionOfflinePublish pool pub matchFn).1 = pool.map (fun sessions i ↦
      match (sessions i).enqueueCall pub matchFn with
      | none => sessions i
      | some q => ((sessions i).enqueueResult q).1) ∧
    (OfflineRight (poolSessions pool) pub matchFn (sessionOfflinePublish pool pub matchFn).2 ↔
      OfflineReady (poolSessions pool) pub matchFn) := by
  unfold sessionOfflinePublish
  rw [if_neg hq]
  cases pool with
  | none =>
      have hzero : ∑ i, ((poolSessions (none : SessionPool cfg) i).offlinePublishOne pub
          matchFn).2 = 0 := Finset.sum_eq_zero fun _ _ ↦ rfl
      exact ⟨rfl, hzero ▸ offlineRight_iff hq⟩
  | some sessions =>
      refine ⟨congrArg some (funext fun i ↦ ?_), offlineRight_iff hq⟩
      dsimp only
      rw [offlinePublishOne_eq]
      cases (sessions i).enqueueCall pub matchFn <;> rfl

namespace OfflineSample

/-- A session away with the filters `#` and `a`. -/
def away (wild exact : UInt8) (full : Bool) : Session :=
  { freshSession [0x63] with
    offline := true
    nextPacketId := 1
    subFilters := fun j ↦ if j.val = 0 then [Ch.hash] else [0x61]
    subQos := fun j ↦ if j.val = 0 then wild else exact
    subCount := 2
    queue := fun _ ↦ ⟨[], [], 0, 0, 0, full⟩ }

def pool (wild exact : UInt8) (full : Bool) : SessionPool Config.posix :=
  some fun i ↦ if i.val = 0 then away wild exact full else default

/-- A message of QoS 1 on `a`. -/
def message : MqttPublish := ⟨[0x61], [0x78], 1, 0, 0, 7⟩

end OfflineSample

open OfflineSample

theorem offline_publish_right_one : OfflineRight (poolSessions (pool 1 0 false)) message topicMatch
    (sessionOfflinePublish (pool 1 0 false) message topicMatch).2 := by
  refine (offline_publish_right (pool 1 0 false) message (by decide) topicMatch).2.mpr ?_
  intro i j haway hfirst
  have hi : poolSessions (pool 1 0 false) i = away 1 0 false := by
    by_contra hne
    have hval : i.val ≠ 0 := fun h ↦ hne (by simp [poolSessions, pool, h])
    have : (poolSessions (pool 1 0 false) i).inUse = false := by
      simp only [poolSessions, pool, hval, Option.getD_some, if_false]
      rfl
    rw [Away, this] at haway
    cases haway.1
  rw [hi] at hfirst ⊢
  have hfound : (away 1 0 false).firstMatch message.topic topicMatch = some ⟨0, by decide⟩ := by
    decide
  obtain rfl := Option.some.inj (hfound.symm.trans hfirst)
  have hall : ∀ k, min message.qos.toNat ((away 1 0 false).subQos k).toNat ≤ 1 := by decide
  exact ⟨fun k _ ↦ hall k, fun _ ↦ ⟨⟨0, by decide⟩, rfl⟩⟩

/-- With QoS 0 at the first filter nothing is enqueued, and a message that meets a full queue is
counted. -/
theorem offline_publish_wrong :
    ¬ OfflineRight (poolSessions (pool 0 1 false)) message topicMatch
      (sessionOfflinePublish (pool 0 1 false) message topicMatch).2 ∧
    (sessionOfflinePublish (pool 1 0 true) message topicMatch).2 = 1 ∧
    ¬ OfflineRight (poolSessions (pool 1 0 true)) message topicMatch
      (sessionOfflinePublish (pool 1 0 true) message topicMatch).2 := by
  refine ⟨fun h ↦ ?_, by decide +kernel, fun h ↦ ?_⟩
  · have hone : IsGreatest ((away 0 1 false).grants topicMatch message.topic) 1 := by
      refine ⟨⟨⟨1, by decide⟩, ⟨by decide, by decide⟩, rfl⟩, ?_⟩
      rintro _ ⟨k, -, rfl⟩
      revert k
      decide
    obtain ⟨q, hq⟩ := (h.tried ⟨0, by decide⟩ ⟨rfl, rfl⟩).mpr ⟨1, hone, Nat.one_pos⟩
    have hnone : (away 0 1 false).enqueueCall message topicMatch = none := by decide
    cases hnone.symm.trans hq
  · have hcount : ¬ (sessionOfflinePublish (pool 1 0 true) message topicMatch).2 =
        (Finset.univ.filter fun i ↦
          (poolSessions (pool 1 0 true) i).accepts message topicMatch).card := by
      decide +kernel
    exact hcount h.counted

end MqttBroker
