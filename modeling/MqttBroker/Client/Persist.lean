import MqttBroker.Client.Inflight

/-!
# The session of one client id

What `handle_connect` and `client_free` do to the session of their client id,
and that nothing else takes it away.
-/

namespace MqttBroker

open Relation

variable {cfg : Config} {κ : Type}

/-! ## Looking a session up -/

/-- Slot `i` of the pool holds the session `s` of a client id. -/
def SessionAt (pool : SessionPool cfg) (id : CStr) (i : SessionSlot cfg) (s : Session) : Prop :=
  ∃ p, pool = some p ∧ p i = s ∧ s.inUse = true ∧ s.clientId = id

/-- No two slots hold a session of the client id. -/
def OneSession (pool : SessionPool cfg) (id : CStr) : Prop :=
  ∀ i j s t, SessionAt pool id i s → SessionAt pool id j t → i = j

theorem sessionAt_some {p : SessionSlot cfg → Session} {id : CStr} {i : SessionSlot cfg}
    {s : Session} :
    SessionAt (some p) id i s ↔ p i = s ∧ s.inUse = true ∧ s.clientId = id := by
  simp [SessionAt]

theorem not_sessionAt_none {id : CStr} {i : SessionSlot cfg} {s : Session} :
    ¬ SessionAt (none : SessionPool cfg) id i s := by
  rintro ⟨p, hp, -⟩
  cases hp

/-- What a slot outside the sessions of `id` is updated to does not matter. -/
theorem sessionAt_update_iff {p : SessionSlot cfg → Session} {id : CStr} {k : SessionSlot cfg}
    {x : Session} (hold : (p k).inUse = true → (p k).clientId ≠ id)
    (hnew : x.inUse = true → x.clientId ≠ id) (i : SessionSlot cfg) (s : Session) :
    SessionAt (some (Function.update p k x)) id i s ↔ SessionAt (some p) id i s := by
  rw [sessionAt_some, sessionAt_some]
  by_cases hik : i = k
  · subst hik
    constructor
    · rintro ⟨hx, huse, hid⟩
      rw [Function.update_self] at hx
      exact absurd (hx ▸ hid) (hnew (hx ▸ huse))
    · rintro ⟨hx, huse, hid⟩
      exact absurd (hx ▸ hid) (hold (hx ▸ huse))
  · rw [Function.update_of_ne hik]

theorem findSession_some {p : SessionSlot cfg → Session} {id : CStr} {i : SessionSlot cfg}
    (h : findSession p id = some i) : SessionAt (some p) id i (p i) := by
  have hp := List.find?_some h
  simp only [Bool.and_eq_true, decide_eq_true_eq] at hp
  exact sessionAt_some.mpr ⟨rfl, hp⟩

theorem findSession_none {p : SessionSlot cfg → Session} {id : CStr}
    (h : findSession p id = none) (i : SessionSlot cfg) (s : Session) :
    ¬ SessionAt (some p) id i s := by
  intro hs
  obtain ⟨rfl, huse, hid⟩ := sessionAt_some.mp hs
  have hnot := List.find?_eq_none.mp h i (List.mem_finRange i)
  simp [huse, hid] at hnot

theorem sessionAt_ensure (pool : SessionPool cfg) (callocOk : Bool) {id : CStr}
    {i : SessionSlot cfg} {s : Session} :
    SessionAt (sessionPoolEnsure pool callocOk) id i s ↔ SessionAt pool id i s := by
  cases pool with
  | some p => rfl
  | none =>
      cases callocOk with
      | false => rfl
      | true =>
          refine ⟨fun h ↦ ?_, fun h ↦ absurd h not_sessionAt_none⟩
          obtain ⟨rfl, huse, -⟩ := sessionAt_some.mp h
          exact absurd huse (by decide)

/-- `session_find_or_create` finds the session, creates it, or has no room. -/
theorem sessionFindOrCreate_cases (pool : SessionPool cfg) (callocOk : Bool) (id : CStr) :
    (∃ i s, SessionAt pool id i s ∧
      sessionFindOrCreate pool callocOk id = (pool, some i, true)) ∨
    (∀ i s, ¬ SessionAt pool id i s) ∧
      ((∃ p i, (∀ id' j s, SessionAt (some p) id' j s ↔ SessionAt pool id' j s) ∧
        (p i).inUse = false ∧ sessionFindOrCreate pool callocOk id =
          (some (Function.update p i (freshSession id)), some i, false)) ∨
      ∃ pool', (∀ id' j s, SessionAt pool' id' j s ↔ SessionAt pool id' j s) ∧
        sessionFindOrCreate pool callocOk id = (pool', none, false)) := by
  have hens : ∀ {id' : CStr} {i : SessionSlot cfg} {s : Session},
      SessionAt (sessionPoolEnsure pool callocOk) id' i s ↔ SessionAt pool id' i s :=
    sessionAt_ensure pool callocOk
  unfold sessionFindOrCreate
  cases hpool : sessionPoolEnsure pool callocOk with
  | none =>
      refine Or.inr ⟨fun i s h ↦ ?_, Or.inr ⟨pool, fun _ _ _ ↦ Iff.rfl, rfl⟩⟩
      rw [← hens, hpool] at h
      exact not_sessionAt_none h
  | some p =>
      rw [hpool] at hens
      cases hfind : findSession p id with
      | some i =>
          have hsome : pool = some p := by
            cases pool with
            | some q => exact hpool
            | none => exact absurd (hens.mp (findSession_some hfind)) not_sessionAt_none
          exact Or.inl ⟨i, p i, hens.mp (findSession_some hfind), by simp [hfind, hsome]⟩
      | none =>
          refine Or.inr ⟨fun i s h ↦ findSession_none hfind i s (hens.mpr h), ?_⟩
          simp only [hfind]
          cases hfree : (List.finRange cfg.maxClients).find? fun i ↦ !(p i).inUse with
          | some i =>
              exact Or.inl ⟨p, i, fun _ _ _ ↦ hens, by simpa using List.find?_some hfree, rfl⟩
          | none => exact Or.inr ⟨some p, fun _ _ _ ↦ hens, rfl⟩

/-! ## What keeps a session -/

/-- What may happen to a session while its client id does nothing. -/
structure Session.Grows (s s' : Session) : Prop where
  subCount : s'.subCount = s.subCount
  subFilters : s'.subFilters = s.subFilters
  subQos : s'.subQos = s.subQos
  offline : s'.offline = s.offline
  idle : s.offline = false → s'.queue = s.queue
  kept : s.QueueKept s'

theorem Session.Grows.refl (s : Session) : s.Grows s :=
  ⟨rfl, rfl, rfl, rfl, fun _ ↦ rfl, fun _ _ ↦ rfl⟩

theorem Session.Grows.trans {s t u : Session} (h : s.Grows t) (h' : t.Grows u) : s.Grows u where
  subCount := h'.subCount.trans h.subCount
  subFilters := h'.subFilters.trans h.subFilters
  subQos := h'.subQos.trans h.subQos
  offline := h'.offline.trans h.offline
  idle hs := (h'.idle (h.offline.trans hs)).trans (h.idle hs)
  kept j hj := (h'.kept j (by rwa [h.kept j hj])).trans (h.kept j hj)

/-- The sessions of a client id stay, and no new one comes. -/
structure PoolKept (id : CStr) (pool pool' : SessionPool cfg) : Prop where
  forth : ∀ i s, SessionAt pool id i s → ∃ s', SessionAt pool' id i s' ∧ s.Grows s'
  back : ∀ i s', SessionAt pool' id i s' → ∃ s, SessionAt pool id i s ∧ s.Grows s'

namespace PoolKept

theorem of_iff {id : CStr} {pool pool' : SessionPool cfg}
    (h : ∀ i s, SessionAt pool' id i s ↔ SessionAt pool id i s) : PoolKept id pool pool' :=
  ⟨fun i s hs ↦ ⟨s, (h i s).mpr hs, .refl s⟩, fun i s hs ↦ ⟨s, (h i s).mp hs, .refl s⟩⟩

theorem refl (id : CStr) (pool : SessionPool cfg) : PoolKept id pool pool :=
  of_iff fun _ _ ↦ Iff.rfl

theorem trans {id : CStr} {a b c : SessionPool cfg} (h : PoolKept id a b)
    (h' : PoolKept id b c) : PoolKept id a c where
  forth i s hs := by
    obtain ⟨t, ht, hst⟩ := h.forth i s hs
    obtain ⟨u, hu, htu⟩ := h'.forth i t ht
    exact ⟨u, hu, hst.trans htu⟩
  back i u hu := by
    obtain ⟨t, ht, htu⟩ := h'.back i u hu
    obtain ⟨s, hs, hst⟩ := h.back i t ht
    exact ⟨s, hs, hst.trans htu⟩

theorem oneSession {id : CStr} {pool pool' : SessionPool cfg} (h : PoolKept id pool pool')
    (hone : OneSession pool id) : OneSession pool' id := by
  intro i j s t hs ht
  obtain ⟨s', hs', -⟩ := h.back i s hs
  obtain ⟨t', ht', -⟩ := h.back j t ht
  exact hone i j s' t' hs' ht'

end PoolKept

theorem Session.offlinePublishOne_grows (s : Session) (pub : MqttPublish)
    (matchFn : CStr → CStr → Bool) :
    s.Grows (s.offlinePublishOne pub matchFn).1 ∧
      (s.offlinePublishOne pub matchFn).1.inUse = s.inUse ∧
      (s.offlinePublishOne pub matchFn).1.clientId = s.clientId := by
  rcases s.offlinePublishOne_cases pub matchFn with heq | ⟨j, htakes, qos, id, next, -, heq⟩
  · rw [heq]
    exact ⟨.refl s, rfl, rfl⟩
  · rw [heq]
    have hkept := Session.enqueue_kept { s with nextPacketId := next }
      { pub with qos := qos, packetId := id } id
    have hidle : ∀ q : Fin SESSION_QUEUE_MAX → SessionMsg, s.offline = false → q = s.queue := by
      simp [htakes.offline]
    rcases Session.enqueue_cases { s with nextPacketId := next }
        { pub with qos := qos, packetId := id } id with ⟨j, -, hq⟩ | ⟨-, hq⟩
    · rw [hq] at hkept ⊢
      exact ⟨⟨rfl, rfl, rfl, rfl, hidle _, hkept⟩, rfl, rfl⟩
    · rw [hq]
      exact ⟨⟨rfl, rfl, rfl, rfl, fun _ ↦ rfl, fun _ _ ↦ rfl⟩, rfl, rfl⟩

theorem OfflineStep.poolKept {pool pool' : SessionPool cfg} (h : OfflineStep pool pool')
    (id : CStr) : PoolKept id pool pool' := by
  obtain ⟨pub, -, rfl⟩ := h
  unfold sessionOfflinePublish
  split_ifs
  · exact .refl id pool
  · cases pool with
    | none => exact .refl id none
    | some p =>
        have hp := fun i ↦ (p i).offlinePublishOne_grows pub topicMatch
        constructor
        · intro i s hs
          obtain ⟨rfl, huse, hid⟩ := sessionAt_some.mp hs
          obtain ⟨hgrow, huse', hid'⟩ := hp i
          exact ⟨_, sessionAt_some.mpr ⟨rfl, huse'.trans huse, hid'.trans hid⟩, hgrow⟩
        · intro i s' hs'
          obtain ⟨rfl, huse, hid⟩ := sessionAt_some.mp hs'
          obtain ⟨hgrow, huse', hid'⟩ := hp i
          exact ⟨_, sessionAt_some.mpr ⟨rfl, huse'.symm.trans huse, hid'.symm.trans hid⟩, hgrow⟩

theorem offlineSteps_poolKept {pool pool' : SessionPool cfg}
    (h : ReflTransGen OfflineStep pool pool') (id : CStr) : PoolKept id pool pool' := by
  induction h with
  | refl => exact .refl id pool
  | tail _ hstep ih => exact ih.trans (hstep.poolKept id)

theorem take_clientId {id : CStr} (h : id.length < MQTT_CLIENT_ID_MAX) :
    id.take (MQTT_CLIENT_ID_MAX - 1) = id :=
  List.take_of_length_le (by simp only [MQTT_CLIENT_ID_MAX] at h ⊢; omega)

/-- Looking up another client id leaves the sessions of `id` alone. -/
theorem sessionFindOrCreate_kept (pool : SessionPool cfg) (callocOk : Bool) {id id' : CStr}
    (hlen : id'.length < MQTT_CLIENT_ID_MAX) (hne : id' ≠ id) :
    PoolKept id pool (sessionFindOrCreate pool callocOk id').1 := by
  rcases sessionFindOrCreate_cases pool callocOk id' with
    ⟨i, s, -, heq⟩ | ⟨-, ⟨p, i, hp, hfree, heq⟩ | ⟨pool', hp, heq⟩⟩
  · rw [heq]
    exact .refl id pool
  · rw [heq]
    refine .of_iff fun j s ↦ (sessionAt_update_iff (by simp [hfree]) (fun _ ↦ ?_) j s).trans
      (hp id j s)
    exact fun h ↦ hne ((take_clientId hlen).symm.trans h)
  · rw [heq]
    exact .of_iff (hp id)

theorem sessionDelete_kept (pool : SessionPool cfg) {id id' : CStr} (hne : id' ≠ id) :
    PoolKept id pool (sessionDelete pool id') := by
  cases pool with
  | none => exact .refl id none
  | some p =>
      simp only [sessionDelete, Option.map_some]
      cases hfind : findSession p id' with
      | none => exact .refl id _
      | some i =>
          obtain ⟨-, -, hid⟩ := sessionAt_some.mp (findSession_some hfind)
          exact .of_iff (sessionAt_update_iff (fun _ ↦ hid ▸ hne) (by simp))

/-- Updating a session through its pointer. -/
theorem sessionAt_updateSession {b : Broker cfg κ} {id : CStr} {i : SessionSlot cfg}
    {s : Session} (hs : SessionAt b.sessions id i s) {f : Session → Session}
    (hf : (f s).inUse = true ∧ (f s).clientId = id) :
    SessionAt (b.updateSession i f).sessions id i (f s) := by
  obtain ⟨p, hp, rfl, -, -⟩ := hs
  rw [Broker.updateSession, hp, Option.map_some]
  exact sessionAt_some.mpr ⟨by simp, hf⟩

theorem sessionAt_updateSession_ne {b : Broker cfg κ} {id : CStr} {i j : SessionSlot cfg}
    (hij : j ≠ i) (f : Session → Session) (t : Session) :
    SessionAt (b.updateSession i f).sessions id j t ↔ SessionAt b.sessions id j t := by
  cases hp : b.sessions with
  | none => simp [Broker.updateSession, hp, not_sessionAt_none]
  | some p =>
      rw [Broker.updateSession, hp, Option.map_some, sessionAt_some, sessionAt_some,
        Function.update_of_ne hij]

theorem OneSession.updateSession {b : Broker cfg κ} {id : CStr} {i : SessionSlot cfg}
    {s : Session} (hone : OneSession b.sessions id) (hs : SessionAt b.sessions id i s)
    (f : Session → Session) : OneSession (b.updateSession i f).sessions id := by
  have hback : ∀ j t, SessionAt (b.updateSession i f).sessions id j t → j = i := by
    intro j t ht
    by_contra hji
    exact hji (hone j i t s ((sessionAt_updateSession_ne hji f t).mp ht) hs)
  intro j k t u ht hu
  exact (hback j t ht).trans (hback k u hu).symm

/-- A session of another client id may be updated at will. -/
theorem updateSession_kept {b : Broker cfg κ} {id id' : CStr} {i : SessionSlot cfg}
    {s : Session} (hs : SessionAt b.sessions id' i s) (hne : id' ≠ id) {f : Session → Session}
    (hf : (f s).clientId = id') : PoolKept id b.sessions (b.updateSession i f).sessions := by
  obtain ⟨p, hp, rfl, -, hid⟩ := hs
  rw [Broker.updateSession, hp, Option.map_some]
  exact .of_iff (sessionAt_update_iff (fun _ ↦ hid ▸ hne) (fun _ ↦ hf ▸ hne))

theorem SessionAt.session_eq {b : Broker cfg κ} {id : CStr} {i : SessionSlot cfg} {s : Session}
    (hs : SessionAt b.sessions id i s) : b.session i = s := by
  obtain ⟨p, hp, rfl, -, -⟩ := hs
  rw [Broker.session, hp]

theorem SessionAt.unique {pool : SessionPool cfg} {id : CStr} {i : SessionSlot cfg}
    {s t : Session} (hs : SessionAt pool id i s) (ht : SessionAt pool id i t) : s = t := by
  obtain ⟨p, rfl, rfl, -, -⟩ := hs
  exact (sessionAt_some.mp ht).1

/-- A session slot is available to the client id. -/
def SlotAvailable (pool : SessionPool cfg) (callocOk : Bool) (id : CStr) : Prop :=
  ∃ p, sessionPoolEnsure pool callocOk = some p ∧ ∃ i, (p i).inUse = false ∨ (p i).clientId = id

theorem SlotAvailable.lookup {pool : SessionPool cfg} {callocOk : Bool} {id : CStr}
    (h : SlotAvailable pool callocOk id) : (sessionFindOrCreate pool callocOk id).2.1 ≠ none := by
  obtain ⟨p, hp, i, hi⟩ := h
  unfold sessionFindOrCreate
  rw [hp]
  dsimp only
  cases hfind : findSession p id with
  | some j => simp
  | none =>
      cases hfree : (List.finRange cfg.maxClients).find? fun i ↦ !(p i).inUse with
      | some j => simp
      | none =>
          have hall : (p i).inUse = true := by
            simpa using List.find?_eq_none.mp hfree i (List.mem_finRange i)
          rcases hi with hi | hi
          · simp [hall] at hi
          · exact absurd (sessionAt_some.mpr ⟨rfl, hall, hi⟩) (findSession_none hfind i (p i))

theorem SlotAvailable.offlineSteps {pool pool' : SessionPool cfg} {callocOk : Bool} {id : CStr}
    (h : SlotAvailable pool callocOk id) (hsteps : ReflTransGen OfflineStep pool pool') :
    SlotAvailable pool' callocOk id := by
  induction hsteps with
  | refl => exact h
  | tail _ hstep ih =>
      obtain ⟨pub, -, rfl⟩ := hstep
      unfold sessionOfflinePublish
      split_ifs
      · exact ih
      · obtain ⟨p, hp, i, hi⟩ := ih
        split
        · exact ⟨p, hp, i, hi⟩
        · rename_i q _
          obtain rfl : q = p := Option.some.inj hp
          obtain ⟨-, huse, hid⟩ := (q i).offlinePublishOne_grows pub topicMatch
          exact ⟨_, rfl, i, hi.imp (huse.trans ·) (hid.trans ·)⟩

/-! ## Saving a session -/

/-- Saving changes neither the owner of a session nor whether it is in use. -/
theorem Session.foldl_saveInflight_owner (l : List Inflight) (s : Session) :
    (l.foldl Session.saveInflight s).inUse = s.inUse ∧
      (l.foldl Session.saveInflight s).clientId = s.clientId ∧
      (l.foldl Session.saveInflight s).offline = s.offline := by
  induction l generalizing s with
  | nil => exact ⟨rfl, rfl, rfl⟩
  | cons e l ih =>
      have hone : (s.saveInflight e).inUse = s.inUse ∧
          (s.saveInflight e).clientId = s.clientId ∧
          (s.saveInflight e).offline = s.offline := by
        unfold Session.saveInflight
        split_ifs
        · exact ⟨rfl, rfl, rfl⟩
        · cases e.reparse with
          | none => exact ⟨rfl, rfl, rfl⟩
          | some pub =>
              rcases s.enqueue_cases { pub with dup := 1 } e.packetId with ⟨i, -, heq⟩ | ⟨-, heq⟩ <;>
                simp [heq]
      obtain ⟨h₁, h₂, h₃⟩ := ih (s.saveInflight e)
      exact ⟨h₁.trans hone.1, h₂.trans hone.2.1, h₃.trans hone.2.2⟩

section

variable [DecidableEq κ]

/-- `client_free` of another client id leaves the sessions of `id` alone. -/
theorem persistSession_kept {b : Broker cfg κ} {me : κ} {id : CStr} (callocOk : Bool)
    (hlen : (b.clients me).clientId.length < MQTT_CLIENT_ID_MAX)
    (hne : (b.clients me).clientId ≠ id) :
    PoolKept id b.sessions (persistSession b me callocOk).sessions := by
  have hlook := sessionFindOrCreate_kept b.sessions callocOk hlen hne
  unfold persistSession
  rcases sessionFindOrCreate_cases b.sessions callocOk (b.clients me).clientId with
    ⟨i, s, hs, heq⟩ | ⟨-, ⟨p, i, -, -, heq⟩ | ⟨pool', -, heq⟩⟩
  all_goals
    rw [heq] at hlook
    simp only [heq]
  · refine hlook.trans (updateSession_kept (b := { b with sessions := b.sessions }) hs hne ?_)
    obtain ⟨-, -, -, -, hid⟩ := hs
    exact (Session.foldl_saveInflight_owner _ _).2.1.trans hid
  · have hs : SessionAt (some (Function.update p i (freshSession (b.clients me).clientId)))
        (b.clients me).clientId i (freshSession (b.clients me).clientId) :=
      sessionAt_some.mpr ⟨by simp, rfl, take_clientId hlen⟩
    refine hlook.trans (updateSession_kept (b := { b with sessions := _ }) hs hne ?_)
    exact (Session.foldl_saveInflight_owner _ _).2.1.trans (take_clientId hlen)
  · exact hlook

/-- The session as `client_free` saves it. -/
structure SavedAt (pool : SessionPool cfg) (id : CStr) (c : Client) (i : SessionSlot cfg)
    (s : Session) : Prop where
  at_slot : SessionAt pool id i s
  one : OneSession pool id
  offline : s.offline = true
  holds : ∀ j pub, (c.inflight j).inUse = true → (c.inflight j).qos = 1 →
    (c.inflight j).Carries pub → s.Holds pub

omit [DecidableEq κ] in
theorem updateSession_savedAt {b : Broker cfg κ} {id : CStr} {i : SessionSlot cfg} {s : Session}
    (hs : SessionAt b.sessions id i s) (hone : OneSession b.sessions id)
    (hempty : ∀ j, (s.queue j).inUse = false) (subs : List (CStr × UInt8)) (c : Client) :
    SavedAt (b.updateSession i fun x ↦ (x.saveSubs subs).saveInflights c).sessions id c i
      ((s.saveSubs subs).saveInflights c) := by
  obtain ⟨huse, hcid, hoff⟩ := Session.foldl_saveInflight_owner
    ((List.finRange CLIENT_INFLIGHT_MAX).map c.inflight) (s.saveSubs subs)
  have hs' := hs
  obtain ⟨-, -, -, hsuse, hsid⟩ := hs'
  exact ⟨sessionAt_updateSession hs ⟨huse.trans hsuse, hcid.trans hsid⟩,
    hone.updateSession hs _, hoff,
    fun j pub hj hq hc ↦ Session.saveInflights_holds (s := s.saveSubs subs) hempty hj hq hc⟩

/-- With a session slot available `client_free` marks the session offline and
saves the QoS 1 messages in flight to it. -/
theorem persistSession_saves {b : Broker cfg κ} {me : κ} {id : CStr} {callocOk : Bool}
    (hid : (b.clients me).clientId = id) (hlen : id.length < MQTT_CLIENT_ID_MAX)
    (hone : OneSession b.sessions id)
    (hidle : ∀ i s, SessionAt b.sessions id i s → ∀ j, (s.queue j).inUse = false)
    (hslot : (sessionFindOrCreate b.sessions callocOk id).2.1 ≠ none) :
    ∃ i s, SavedAt (persistSession b me callocOk).sessions id (b.clients me) i s := by
  unfold persistSession
  rw [hid]
  rcases sessionFindOrCreate_cases b.sessions callocOk id with
    ⟨i, s, hs, heq⟩ | ⟨hnone, ⟨p, i, hp, -, heq⟩ | ⟨pool', -, heq⟩⟩
  · simp only [heq]
    exact ⟨i, _, updateSession_savedAt (b := { b with sessions := b.sessions }) hs hone
      (hidle i s hs) _ _⟩
  · simp only [heq]
    have hs : SessionAt (some (Function.update p i (freshSession id))) id i (freshSession id) :=
      sessionAt_some.mpr ⟨by simp, rfl, take_clientId hlen⟩
    refine ⟨i, _, updateSession_savedAt
      (b := { b with sessions := some (Function.update p i (freshSession id)) }) hs ?_
      (fun _ ↦ rfl) _ _⟩
    have hback : ∀ j t, SessionAt (some (Function.update p i (freshSession id))) id j t → j = i := by
      intro j t ht
      by_contra hji
      rw [sessionAt_some, Function.update_of_ne hji, ← sessionAt_some, hp] at ht
      exact hnone j t ht
    exact fun j k t u ht hu ↦ (hback j t ht).trans (hback k u hu).symm
  · exact absurd (by rw [heq]) hslot

/-! ## Resuming a session -/

/-- Restoring subscriptions changes only the table and notifies. -/
theorem foldl_restoreOne_frame (me : κ) (s : SessionSlot cfg) (l : List (Fin SESSION_SUB_MAX))
    (h : Handled cfg κ) :
    ∃ t log, l.foldl (restoreOne me s) h = ⟨{ h.broker with table := t }, h.log ++ log⟩ := by
  induction l generalizing h with
  | nil => exact ⟨h.broker.table, [], by simp⟩
  | cons i l ih =>
      rw [List.foldl_cons]
      obtain ⟨t, log, heq⟩ := ih (restoreOne me s h i)
      rw [heq]
      unfold restoreOne
      split_ifs
      · refine ⟨t, (h.broker.table.topicSubscribe me ((h.broker.session s).subFilters i)
          ((h.broker.session s).subQos i)).2.2.map .notify ++ log, ?_⟩
        rw [← List.append_assoc]
      · exact ⟨t, log, rfl⟩

/-- A session after `session_drain` of an online session. -/
def Session.drained (s : Session) : Session :=
  { s with offline := false, queue := fun i ↦ { s.queue i with inUse := false } }

/-- What resuming the session at slot `i` makes of the broker. -/
theorem resumeSession_eq (env : Env κ) (me : κ) {h : Handled cfg κ} {id : CStr}
    {i : SessionSlot cfg} {s : Session} (hs : SessionAt h.broker.sessions id i s) :
    ∃ t log, resumeSession env me i h =
      ⟨{ h.broker with
          table := t
          sessions := (h.broker.updateSession i fun _ ↦ s.drained).sessions
          clients := Function.update h.broker.clients me
            (s.drain (h.broker.clients me) env.now (env.sendOk me)).2.1 },
        h.log ++ log ++
          (s.drain (h.broker.clients me) env.now (env.sendOk me)).2.2.map .reply⟩ := by
  obtain ⟨t, log, heq⟩ := foldl_restoreOne_frame me i (List.finRange SESSION_SUB_MAX) h
  obtain ⟨p, hp, rfl, -, -⟩ := hs
  refine ⟨t, log, ?_⟩
  have hdrain : Session.drainOne { p i with offline := false } = (p i).drainOne := rfl
  rw [resumeSession, heq]
  simp [markOnline, drainSession, Broker.updateSession, Broker.session, hp, Session.drain,
    Session.drained, Broker.updateClient, hdrain]

theorem clientTakeover_steps (b : Broker cfg κ) (me : κ) (id : CStr) (k : κ) :
    ReflTransGen ClientStep (b.clients k) ((clientTakeover b me id).clients k) := by
  unfold clientTakeover
  dsimp only
  split_ifs
  · exact .single (.mark _ .disconnecting _ _ _)
  · exact .refl

theorem reply_sessions (env : Env κ) (me : κ) (frame : Option Bytes) (h : Handled cfg κ) :
    (h.reply env me frame).broker.sessions = h.broker.sessions ∧
      (h.reply env me frame).broker.retains = h.broker.retains := by
  cases frame <;> exact ⟨rfl, rfl⟩

/-- Every session of the pool satisfies `S`. -/
def PoolAll (S : Session → Prop) (pool : SessionPool cfg) : Prop :=
  ∀ p, pool = some p → ∀ i, S (p i)

section

variable {S : Session → Prop} {pool : SessionPool cfg}

theorem poolAll_update {p : SessionSlot cfg → Session} (hp : ∀ i, S (p i)) {x : Session}
    (hx : S x) (k : SessionSlot cfg) : ∀ i, S (Function.update p k x i) := by
  intro i
  by_cases hik : i = k
  · subst hik
    simpa using hx
  · simpa [hik] using hp i

theorem PoolAll.findOrCreate (hpool : PoolAll S pool)
    (hempty : ∀ s : Session, s.subCount = 0 → (∀ j, (s.queue j).inUse = false) → S s)
    (callocOk : Bool) (id : CStr) : PoolAll S (sessionFindOrCreate pool callocOk id).1 := by
  have hens : PoolAll S (sessionPoolEnsure pool callocOk) := by
    unfold sessionPoolEnsure
    cases pool with
    | some p => exact hpool
    | none =>
        cases callocOk
        · exact fun p hp ↦ by cases hp
        · rintro _ ⟨rfl⟩ i
          exact hempty _ rfl fun _ ↦ rfl
  unfold sessionFindOrCreate
  cases hp : sessionPoolEnsure pool callocOk with
  | none => exact hpool
  | some p =>
      dsimp only
      split
      · exact hp ▸ hens
      · split
        · rintro _ ⟨rfl⟩
          exact poolAll_update (hens p hp) (hempty _ rfl fun _ ↦ rfl) _
        · exact hp ▸ hens

theorem PoolAll.delete (hpool : PoolAll S pool)
    (hdelete : ∀ s : Session, S s → S { s with inUse := false }) (id : CStr) :
    PoolAll S (sessionDelete pool id) := by
  cases pool with
  | none => exact fun p hp ↦ by cases hp
  | some q =>
      rintro _ ⟨rfl⟩
      dsimp only
      cases findSession q id with
      | some i => exact poolAll_update (hpool q rfl) (hdelete (q i) (hpool q rfl i)) i
      | none => exact hpool q rfl

end

theorem Session.queueOk_of_empty {s : Session} (h : ∀ j, (s.queue j).inUse = false) :
    s.QueueOk := fun j hj ↦ by simp [h j] at hj

theorem sessionFindOrCreate_queueOk {pool : SessionPool cfg} (callocOk : Bool) (id : CStr)
    (hpool : ∀ p, pool = some p → ∀ i, (p i).QueueOk) :
    ∀ p, (sessionFindOrCreate pool callocOk id).1 = some p → ∀ i, (p i).QueueOk :=
  PoolAll.findOrCreate hpool (fun _ _ ↦ Session.queueOk_of_empty) callocOk id

theorem sessionDelete_queueOk {pool : SessionPool cfg} (id : CStr)
    (hpool : ∀ p, pool = some p → ∀ i, (p i).QueueOk) :
    ∀ p, sessionDelete pool id = some p → ∀ i, (p i).QueueOk :=
  PoolAll.delete hpool (fun _ h ↦ h) id

/-- What `handle_connect` has done when it sends the CONNACK. -/
structure Greeted (env : Env κ) (b : Broker cfg κ) (me : κ) (conn : MqttConnect)
    (h : Handled cfg κ) : Prop where
  sessions : h.broker.sessions = (connectSession b.sessions env.callocOk conn).1
  retains : h.broker.retains = b.retains
  self : ReflTransGen ClientStep ((b.clients me).connectFields conn) (h.broker.clients me)
  others : ∀ k, k ≠ me → ReflTransGen ClientStep (b.clients k) (h.broker.clients k)

theorem connectGreet_greeted (env : Env κ) (b : Broker cfg κ) (me : κ) (conn : MqttConnect) :
    Greeted env b me conn (connectGreet env b me conn).1 ∧
      (connectGreet env b me conn).2 = (connectSession b.sessions env.callocOk conn).2 := by
  refine ⟨?_, rfl⟩
  unfold connectGreet
  dsimp only
  set h₀ : Handled cfg κ :=
    ⟨{ (clientTakeover b me conn.clientId).updateClient me (·.connectFields conn) with
      sessions := (connectSession b.sessions env.callocOk conn).1 }, []⟩ with hh₀
  generalize packetBuildConnack _ Connack.accepted 4 = frame
  obtain ⟨hsess, hret⟩ := reply_sessions env me frame h₀
  have hclients := (reply_evolves env me frame h₀).clients
  refine ⟨hsess, hret, ?_, fun k hk ↦ ?_⟩
  · have hme : h₀.broker.clients me = (b.clients me).connectFields conn := by
      simp [hh₀, Broker.updateClient, clientTakeover_me]
    exact hme ▸ hclients me
  · have hother : h₀.broker.clients k = (clientTakeover b me conn.clientId).clients k := by
      simp [hh₀, Broker.updateClient, hk]
    exact (clientTakeover_steps b me conn.clientId k).trans (hother ▸ hclients k)

/-- `handle_connect` ends with its CONNACK, or resumes the session it found. -/
theorem connectAccepted_cases (env : Env κ) (b : Broker cfg κ) (me : κ) (conn : MqttConnect) :
    (connectAccepted env b me conn = (connectGreet env b me conn).1 ∧
        ∀ i, (connectSession b.sessions env.callocOk conn).2 ≠ (some i, true)) ∨
      ∃ i, (connectSession b.sessions env.callocOk conn).2 = (some i, true) ∧
        connectAccepted env b me conn =
          resumeSession env me i (connectGreet env b me conn).1 := by
  obtain ⟨-, hfound⟩ := connectGreet_greeted env b me conn
  rw [← hfound]
  unfold connectAccepted
  obtain ⟨h, sess, present⟩ := connectGreet env b me conn
  cases sess <;> cases present <;> simp

end

end MqttBroker
