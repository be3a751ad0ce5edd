import MqttBroker.Mesh.Telling

/-!
# What each router was told

A filter is advertised for the clients of both listeners.  `topic_unsubscribe` and
`topic_unsubscribe_all` withdraw it, and `advertise_local_subs_to` advertises it to a new router,
by the table of the MQTT listener alone.
-/

namespace MqttBroker

open Observer

variable {cfg : Config} {κ R : Type}

/-! ## The calls of the MQTT listener -/

section

variable [DecidableEq κ]

/-- The table and the notifications of a call. -/
def TopicTable.call (t : TopicTable cfg κ) :
    TopicOp κ → Option (TopicTable cfg κ × List Notify)
  | .subscribe c filter qos =>
      let r := t.topicSubscribe c filter qos
      some (r.1, r.2.2)
  | .unsubscribe c filter => t.topicUnsubscribe c filter
  | .unsubscribeAll c => t.topicUnsubscribeAll c

/-- What a SUBSCRIBE packet can ask for. -/
def TopicOp.Requested : TopicOp κ → Prop
  | .subscribe _ filter qos => filter.length < MQTT_TOPIC_MAX ∧ qos ≤ 2
  | _ => True

omit [DecidableEq κ] in
instance : DecidablePred (TopicOp.Requested (κ := κ))
  | .subscribe _ _ _ => inferInstanceAs (Decidable (_ ∧ _))
  | .unsubscribe _ _ => isTrue trivial
  | .unsubscribeAll _ => isTrue trivial

end

/-! ## The filters of the table -/

namespace TopicTable

/-- `topic_get_sub_snapshots_from`: at most `max` subscriptions of the slots at the cursor, and
the slots after it. -/
def getSubSnapshotsFrom (t : TopicTable cfg κ) :
    ℕ → List (Slot cfg) → List (CStr × UInt8) × List (Slot cfg)
  | 0, slots => ([], slots)
  | _ + 1, [] => ([], [])
  | max + 1, i :: slots =>
      if (t.subs i).inUse then
        let (out, rest) := t.getSubSnapshotsFrom max slots
        (((t.subs i).filter, (t.subs i).qos) :: out, rest)
      else t.getSubSnapshotsFrom (max + 1) slots

/-- The loop of `advertise_local_subs_to`. -/
def advertiseFrom (t : TopicTable cfg κ) : ℕ → List (Slot cfg) → List Notify
  | 0, _ => []
  | _ + 1, [] => []
  | k + 1, i :: slots =>
      let (subs, rest) := t.getSubSnapshotsFrom 8 (i :: slots)
      subs.map (fun s ↦ .localSubscribe s.1 s.2) ++ t.advertiseFrom k rest

/-- The SUB_NOTIFY frames of `advertise_local_subs_to`. -/
def advertiseLocalSubsTo (t : TopicTable cfg κ) : List Notify :=
  t.advertiseFrom cfg.topicMaxSubs (List.finRange cfg.topicMaxSubs)

/-- The subscriptions of some slots. -/
def snapshots (t : TopicTable cfg κ) (slots : List (Slot cfg)) : List (CStr × UInt8) :=
  (slots.filter fun i ↦ (t.subs i).inUse).map fun i ↦ ((t.subs i).filter, (t.subs i).qos)

theorem snapshots_cons (t : TopicTable cfg κ) (i : Slot cfg) (slots : List (Slot cfg)) :
    t.snapshots (i :: slots) = (if (t.subs i).inUse then [((t.subs i).filter, (t.subs i).qos)]
      else []) ++ t.snapshots slots := by
  unfold snapshots
  rw [List.filter_cons]
  split_ifs <;> rfl

theorem getSubSnapshotsFrom_append (t : TopicTable cfg κ) (max : ℕ) (slots : List (Slot cfg)) :
    (t.getSubSnapshotsFrom max slots).1 ++ t.snapshots (t.getSubSnapshotsFrom max slots).2 =
      t.snapshots slots := by
  induction slots generalizing max with
  | nil => cases max <;> rfl
  | cons i slots ih =>
      cases max with
      | zero => rfl
      | succ max =>
          rw [getSubSnapshotsFrom, snapshots_cons]
          split_ifs
          · rw [List.cons_append, ih]
            rfl
          · exact ih (max + 1)

theorem getSubSnapshotsFrom_length_le (t : TopicTable cfg κ) (max : ℕ)
    (slots : List (Slot cfg)) : (t.getSubSnapshotsFrom max slots).2.length ≤ slots.length := by
  induction slots generalizing max with
  | nil => cases max <;> exact Nat.le_refl _
  | cons i slots ih =>
      cases max with
      | zero => exact Nat.le_refl _
      | succ max =>
          rw [getSubSnapshotsFrom]
          split_ifs
          · exact Nat.le_succ_of_le (ih max)
          · exact Nat.le_succ_of_le (ih (max + 1))

/-- Every batch gets further. -/
theorem getSubSnapshotsFrom_length_lt (t : TopicTable cfg κ) (max : ℕ) (i : Slot cfg)
    (slots : List (Slot cfg)) :
    (t.getSubSnapshotsFrom (max + 1) (i :: slots)).2.length ≤ slots.length := by
  rw [getSubSnapshotsFrom]
  split_ifs
  · exact t.getSubSnapshotsFrom_length_le max slots
  · exact t.getSubSnapshotsFrom_length_le (max + 1) slots

theorem advertiseFrom_eq (t : TopicTable cfg κ) {k : ℕ} {slots : List (Slot cfg)}
    (hk : slots.length ≤ k) :
    t.advertiseFrom k slots = (t.snapshots slots).map fun s ↦ .localSubscribe s.1 s.2 := by
  induction k generalizing slots with
  | zero =>
      obtain rfl := List.length_eq_zero_iff.mp (Nat.le_zero.mp hk)
      rfl
  | succ k ih =>
      cases slots with
      | nil => rfl
      | cons i slots =>
          have hlength : (t.getSubSnapshotsFrom 8 (i :: slots)).2.length ≤ slots.length :=
            t.getSubSnapshotsFrom_length_lt 7 i slots
          have happend := t.getSubSnapshotsFrom_append 8 (i :: slots)
          rw [advertiseFrom]
          generalize t.getSubSnapshotsFrom 8 (i :: slots) = batch at hlength happend ⊢
          dsimp only
          rw [ih (hlength.trans (Nat.le_of_succ_le_succ hk)), ← List.map_append, happend]

theorem mem_advertiseLocalSubsTo {t : TopicTable cfg κ} {m : Notify} :
    m ∈ t.advertiseLocalSubsTo ↔ ∃ i, (t.subs i).inUse = true ∧
      m = .localSubscribe (t.subs i).filter (t.subs i).qos := by
  rw [advertiseLocalSubsTo, advertiseFrom_eq t (List.length_finRange.le), snapshots, List.map_map,
    List.mem_map]
  simp only [List.mem_filter, List.mem_finRange, true_and, Function.comp_apply, eq_comm]

/-- What a new router is told is what the clients of the MQTT listener hold. -/
theorem heard_advertiseLocalSubsTo (t : TopicTable cfg κ) (f : CStr) :
    heard t.advertiseLocalSubsTo f = some true ↔ t.Held f := by
  have hsub : ∀ m ∈ t.advertiseLocalSubsTo, m.isSub = true := by
    intro m hm
    obtain ⟨i, -, rfl⟩ := mem_advertiseLocalSubsTo.mp hm
    rfl
  unfold heard
  rw [Option.map_eq_some_iff]
  constructor
  · rintro ⟨m, hlast, -⟩
    have hm := List.mem_filter.mp (List.mem_of_getLast? hlast)
    obtain ⟨i, huse, rfl⟩ := mem_advertiseLocalSubsTo.mp hm.1
    exact ⟨i, huse, of_decide_eq_true hm.2⟩
  · rintro ⟨i, huse, rfl⟩
    have hmem : Notify.localSubscribe (t.subs i).filter (t.subs i).qos ∈
        t.advertiseLocalSubsTo.filter fun m ↦ m.filter = (t.subs i).filter :=
      List.mem_filter.mpr ⟨mem_advertiseLocalSubsTo.mpr ⟨i, huse, rfl⟩, decide_eq_true rfl⟩
    obtain ⟨m, hlast⟩ := Option.isSome_iff_exists.mp
      (List.getLast?_isSome.mpr (List.ne_nil_of_mem hmem))
    exact ⟨m, hlast, hsub m (List.mem_filter.mp (List.mem_of_getLast? hlast)).1⟩

end TopicTable

/-! ## What the calls tell -/

section

variable [DecidableEq κ] {t : TopicTable cfg κ}

theorem TopicTable.unsubscribeRounds_unsubscribed {c : κ} {k : ℕ}
    {r : TopicTable cfg κ × List Notify} (hrun : unsubscribeRounds c k t = some r) {m : Notify}
    (hm : m ∈ r.2) : t.Held m.filter := by
  induction k generalizing t r with
  | zero => cases hrun
  | succ k ih =>
      rw [TopicTable.unsubscribeRounds] at hrun
      split at hrun
      · cases hrun
        cases hm
      · next i hfind =>
          obtain ⟨t', hstep, hrun⟩ := Option.bind_eq_some_iff.mp hrun
          obtain ⟨r', hrest, hrun⟩ := Option.bind_eq_some_iff.mp hrun
          cases hrun
          have hi : (t.subs i).inUse = true ∧ (t.subs i).client = c := by
            simpa using List.find?_some hfind
          rcases List.mem_append.mp hm with hm | hm
          · refine ⟨i, hi.1, ?_⟩
            split_ifs at hm
            · rw [List.mem_singleton.mp hm]
              rfl
            · rw [List.mem_singleton.mp hm]
              rfl
            · cases hm
          · exact (removed_removeSlot hi.2 hstep).held (ih hrest hm)

/-- A round of `topic_unsubscribe_all` is one of its sections. -/
theorem TopicTable.unsubscribeRounds_succ (hp : cfg.p2pDynamic = true) (c : κ) (k : ℕ) :
    unsubscribeRounds c (k + 1) t = (unsubscribeSection t c).bind fun r ↦
      match r.2 with
      | none => some (r.1, [])
      | some notes => (unsubscribeRounds c k r.1).map fun s ↦ (s.1, notes ++ s.2) := by
  rw [TopicTable.unsubscribeRounds, unsubscribeSection, if_pos hp]
  cases (List.finRange cfg.topicMaxSubs).find? fun i ↦
      (t.subs i).inUse && (t.subs i).client = c with
  | none => rfl
  | some i =>
      dsimp only
      cases t.removeSlot i with
      | none => rfl
      | some t' =>
          simp only [Option.bind_eq_bind, Option.bind_some]
          cases unsubscribeRounds c k t' <;> rfl

theorem TopicTable.unsubscribeRounds_tells (hp : cfg.p2pDynamic = true) (h : t.Announceable)
    {c : κ} {k : ℕ} {r : TopicTable cfg κ × List Notify}
    (hrun : unsubscribeRounds c k t = some r) : Tells t.Held r.1.Held r.2 := by
  induction k generalizing t r with
  | zero => cases hrun
  | succ k ih =>
      rw [unsubscribeRounds_succ hp] at hrun
      obtain ⟨⟨t', notes⟩, hsection, hrun⟩ := Option.bind_eq_some_iff.mp hrun
      have htells := (unsubscribeSection_announces hp h hsection).tells
      cases notes with
      | none =>
          cases hrun
          exact htells
      | some notes =>
          obtain ⟨s, hrest, rfl⟩ := Option.map_eq_some_iff.mp hrun
          exact htells.trans (ih (h.removed (unsubscribeSection_removed hsection).1) hrest)

/-- A filter is withdrawn only if a client of the MQTT listener held it. -/
theorem TopicTable.call_unsubscribed {op : TopicOp κ} {r : TopicTable cfg κ × List Notify}
    (hrun : t.call op = some r) {m : Notify} (hm : m ∈ r.2) (hsub : m.isSub = false) :
    t.Held m.filter := by
  cases op with
  | subscribe c filter qos =>
      cases hrun
      have hone : ∀ {p : Prop} [Decidable p] {q : UInt8},
          m ∈ (if p then [Notify.localSubscribe filter q] else []) → False := by
        intro p _ q hm
        split_ifs at hm
        · rw [List.mem_singleton.mp hm] at hsub
          cases hsub
        · cases hm
      unfold TopicTable.topicSubscribe at hm
      dsimp only at hm
      split at hm
      · exact (hone hm).elim
      · split at hm
        · exact (hone hm).elim
        · cases hm
  | unsubscribe c filter =>
      rw [TopicTable.call, TopicTable.topicUnsubscribe] at hrun
      cases hfind : t.findSub c filter with
      | none =>
          rw [hfind] at hrun
          cases hrun
          cases hm
      | some i =>
          rw [hfind] at hrun
          obtain ⟨t', -, hrun⟩ := Option.bind_eq_some_iff.mp hrun
          cases hrun
          have hheld : t.Held filter := ⟨i, holdsAt_iff.mpr ⟨_, findSub_some hfind, rfl⟩⟩
          dsimp only at hm
          split_ifs at hm
          · rwa [List.mem_singleton.mp hm]
          · cases hm
          · rwa [List.mem_singleton.mp hm]
          · cases hm
          · cases hm
  | unsubscribeAll c =>
      rw [TopicTable.call, TopicTable.topicUnsubscribeAll] at hrun
      split_ifs at hrun
      · exact unsubscribeRounds_unsubscribed hrun hm
      · obtain ⟨t', -, hrun⟩ := Option.bind_eq_some_iff.mp hrun
        cases hrun
        cases hm

theorem TopicTable.call_tells (hp : cfg.p2pDynamic = true) (h : t.Announceable) {op : TopicOp κ}
    (hop : op.Requested) {r : TopicTable cfg κ × List Notify} (hrun : t.call op = some r) :
    r.1.Announceable ∧ Tells t.Held r.1.Held r.2 := by
  cases op with
  | subscribe c filter qos =>
      cases hrun
      refine ⟨h.topicSubscribe fun n ↦ ⟨hop.2, ?_⟩,
        (topicSubscribe_announces hp h c hop.1 hop.2).tells⟩
      exact lt_of_le_of_lt (List.length_take_le' _ _) hop.1
  | unsubscribe c filter =>
      exact ⟨h.topicUnsubscribe hrun, (topicUnsubscribe_announces hp h hrun).tells⟩
  | unsubscribeAll c =>
      refine ⟨h.removed (removed_topicUnsubscribeAll hrun), ?_⟩
      rw [TopicTable.call, TopicTable.topicUnsubscribeAll, if_pos hp] at hrun
      exact unsubscribeRounds_tells hp h hrun

end

/-! ## The broker and its routers -/

/-- The tables of both listeners, and what each connected router was sent. -/
structure AdvertiseState (cfg : Config) (κ R : Type) where
  table : TopicTable cfg κ
  mesh : MeshClients
  received : R → Option (List Notify)

/-- `owner` is the router that owns the shard of a filter. -/
inductive AdvertiseStep (κ R : Type) where
  | topic (op : TopicOp κ) (owner : CStr → Option R)
  | accept (fd : ℤ)
  | packet (env : MeshEnv) (i : MeshSlot) (recvd : Option MqttPacket) (owner : CStr → Option R)
  | retry (i : MeshSlot) (now : ℤ) (sendOk : Fin MESH_INGRESS_INFLIGHT_MAX → Bool)
      (owner : CStr → Option R)
  /-- a message of a peer -/
  | remote (env : MeshEnv) (pub : MqttPublish) (owner : CStr → Option R)
  /-- a router connects -/
  | connect (r : R)
  | disconnect (r : R)

section

variable [DecidableEq R]

/-- `p2p_local_subscribe` and `p2p_local_unsubscribe`: the owner of the shard is told first, and
then all connected routers are. -/
def sendNote (owner : CStr → Option R) (received : R → Option (List Notify)) (m : Notify) :
    R → Option (List Notify) :=
  if m.fits then fun r ↦ (received r).map fun log ↦
    if owner m.filter = some r then log ++ [m] ++ [m] else log ++ [m]
  else received

def sendNotes (owner : CStr → Option R) (received : R → Option (List Notify))
    (notes : List Notify) : R → Option (List Notify) :=
  notes.foldl (sendNote owner) received

variable [DecidableEq κ]

def advertiseStep (s : AdvertiseState cfg κ R) :
    AdvertiseStep κ R → Option (AdvertiseState cfg κ R)
  | .topic op owner =>
      if op.Requested then (s.table.call op).map fun r ↦
        { s with table := r.1, received := sendNotes owner s.received r.2 }
      else none
  | .accept fd => some { s with mesh := meshIngressAccept s.mesh fd }
  | .packet env i recvd owner =>
      let r := meshIngressHandleClient env s.table s.mesh i recvd
      some { s with mesh := r.1, received := sendNotes owner s.received (notesOf r.2) }
  | .retry i now sendOk owner =>
      let r := meshInflightRetry s.table s.mesh i now sendOk
      some { s with mesh := r.1, received := sendNotes owner s.received (notesOf r.2) }
  | .remote env pub owner =>
      let r := publishRemote env s.table (.value pub) s.mesh
      some { s with mesh := r.1, received := sendNotes owner s.received (notesOf r.2) }
  | .connect r =>
      match s.received r with
      | none => some { s with
          received := Function.update s.received r (some s.table.advertiseLocalSubsTo) }
      | some _ => none
  | .disconnect r => some { s with received := Function.update s.received r none }

def AdvertiseState.start (cfg : Config) (κ R : Type) [Inhabited κ] : AdvertiseState cfg κ R :=
  ⟨topicInit cfg κ, fun _ ↦ meshZeroed 0 false, fun _ ↦ none⟩

def advertiseSystem (cfg : Config) (κ R : Type) [DecidableEq κ] [DecidableEq R] :
    System (AdvertiseState cfg κ R) (AdvertiseStep κ R) Unit where
  step := advertiseStep
  note _ _ _ := ()

/-! ## The claim -/

omit [DecidableEq κ] [DecidableEq R]

/-- Every connected router was told last of each filter whether a client of either listener
holds it. -/
def Advertised (s : AdvertiseState cfg κ R) : Prop :=
  ∀ r log, s.received r = some log → ∀ f,
    (HeldByAny s.table s.mesh f → heard log f = some true) ∧
      (¬ HeldByAny s.table s.mesh f → heard log f = none ∨ heard log f = some false)

/-- If a mesh-ingress client holds the filter of this slot, another client of the MQTT listener
than that of the slot holds it as well. -/
def AdvertiseState.HeldOn (s : AdvertiseState cfg κ R) (i : Slot cfg) : Prop :=
  MeshHeld s.mesh (s.table.subs i).filter → ∃ j, s.table.HoldsAt (s.table.subs i).filter j ∧
    (s.table.subs j).client ≠ (s.table.subs i).client

/-- While a router is connected, no client of the MQTT listener gives up a filter that only
mesh-ingress clients hold on to; and when a router connects, there is no filter that only
mesh-ingress clients hold. -/
def TableSuffices (s : AdvertiseState cfg κ R) : AdvertiseStep κ R → Prop
  | .topic (.unsubscribe c filter) _ => (∀ r, s.received r = none) ∨
      ∀ i, s.table.HoldsAt filter i → (s.table.subs i).client = c → s.HeldOn i
  | .topic (.unsubscribeAll c) _ => (∀ r, s.received r = none) ∨
      ∀ i, (s.table.subs i).inUse = true → (s.table.subs i).client = c → s.HeldOn i
  | .connect _ => ∀ f, MeshHeld s.mesh f → s.table.Held f
  | _ => True

/-! ## The invariant -/

/-- Every connected router knows which filters are held. -/
def Knows (received : R → Option (List Notify)) (H : CStr → Prop) : Prop :=
  ∀ r log, received r = some log → ∀ f, heard log f = some true ↔ H f

theorem Knows.congr {received : R → Option (List Notify)} {H H' : CStr → Prop}
    (h : Knows received H) (hH : ∀ f, H' f ↔ H f) : Knows received H' :=
  fun r log hr f ↦ (h r log hr f).trans (hH f).symm

structure AdvertiseInv (s : AdvertiseState cfg κ R) : Prop where
  table : s.table.Announceable
  mesh : MeshFilters s.mesh
  knows : Knows s.received (HeldByAny s.table s.mesh)

theorem AdvertiseInv.advertised {s : AdvertiseState cfg κ R} (h : AdvertiseInv s) :
    Advertised s := by
  intro r log hr f
  have hknows := h.knows r log hr f
  refine ⟨hknows.mpr, fun hnot ↦ ?_⟩
  cases hlog : heard log f with
  | none => exact .inl rfl
  | some told =>
      cases told with
      | false => exact .inr rfl
      | true => exact absurd (hknows.mp hlog) hnot

variable [DecidableEq R]

theorem sendNotes_none {received : R → Option (List Notify)} (hnone : ∀ r, received r = none)
    (owner : CStr → Option R) (notes : List Notify) (r : R) :
    sendNotes owner received notes r = none := by
  induction notes generalizing received with
  | nil => exact hnone r
  | cons m notes ih =>
      refine ih fun r ↦ ?_
      unfold sendNote
      split_ifs
      · dsimp only
        rw [hnone r, Option.map_none]
      · exact hnone r

/-- What a router has heard is as if it had got every notification once. -/
theorem heard_sendNotes {received : R → Option (List Notify)} (owner : CStr → Option R)
    {notes : List Notify} (hfits : ∀ m ∈ notes, m.fits = true) {r : R} {log' : List Notify}
    (hr : sendNotes owner received notes r = some log') :
    ∃ log, received r = some log ∧ ∀ f, heard log' f = heard (log ++ notes) f := by
  induction notes generalizing received with
  | nil => exact ⟨log', hr, fun f ↦ by rw [List.append_nil]⟩
  | cons m notes ih =>
      obtain ⟨log₁, hlog₁, hheard⟩ := ih (fun m hm ↦ hfits m (List.mem_cons_of_mem _ hm)) hr
      rw [sendNote, if_pos (hfits m List.mem_cons_self)] at hlog₁
      obtain ⟨log, hlog, rfl⟩ := Option.map_eq_some_iff.mp hlog₁
      refine ⟨log, hlog, fun f ↦ ?_⟩
      rw [hheard, heard_append_list, List.append_cons log m notes, heard_append_list (log ++ [m])]
      refine congrArg _ ?_
      split_ifs
      · rw [heard_append, heard_append, Function.update_idem]
      · rfl

theorem Knows.sendNotes {received : R → Option (List Notify)} {H H' : CStr → Prop}
    (h : Knows received H) {notes : List Notify} (htells : Tells H H' notes)
    (owner : CStr → Option R) : Knows (sendNotes owner received notes) H' := by
  intro r log' hr f
  obtain ⟨log, hlog, hheard⟩ := heard_sendNotes owner htells.fits hr
  rw [hheard]
  exact htells.heard_iff (h r log hlog f)

omit [DecidableEq R]

/-- Calls of the MQTT listener tell the filters of both if they withdraw none that a mesh-ingress
client holds. -/
theorem Tells.withMesh {t t' : TopicTable cfg κ} {m : MeshClients} {notes : List Notify}
    (h : Tells t.Held t'.Held notes) (hmesh : ∀ f, MeshHeld m f → heard notes f ≠ some false) :
    Tells (HeldByAny t m) (HeldByAny t' m) notes where
  fits := h.fits
  last f := by
    have hlast := h.last f
    cases hheard : heard notes f with
    | none =>
        rw [hheard] at hlast
        exact or_congr_left hlast
    | some told =>
        rw [hheard] at hlast
        cases told with
        | true => exact iff_of_true (.inl (hlast.mpr rfl)) rfl
        | false =>
            refine iff_of_false ?_ nofun
            rintro (hf | hf)
            · cases hlast.mp hf
            · exact hmesh f hf hheard

variable [DecidableEq κ]

/-- What a call leaves of a filter, if it is held on to. -/
theorem held_of_tableSuffices {s : AdvertiseState cfg κ R} {op : TopicOp κ}
    {owner : CStr → Option R} (hallowed : TableSuffices s (.topic op owner))
    (hrouter : ¬ ∀ r, s.received r = none) {r : TopicTable cfg κ × List Notify}
    (hrun : s.table.call op = some r) {f : CStr} (hmesh : MeshHeld s.mesh f)
    (hf : s.table.Held f) : r.1.Held f := by
  cases op with
  | subscribe c filter qos =>
      cases hrun
      exact hf.topicSubscribe c filter qos
  | unsubscribe c filter =>
      by_cases hfilter : f = filter
      · subst hfilter
        obtain ⟨i, huse, rfl⟩ := hf
        have hremoved : s.table.Removed c r.1 := TopicTable.removed_topicUnsubscribe hrun
        by_cases hc : (s.table.subs i).client = c
        · obtain ⟨j, hj, hother⟩ := hallowed.resolve_left hrouter i ⟨huse, rfl⟩ hc hmesh
          exact hremoved.held_of_other hj (hc ▸ hother)
        · exact hremoved.held_of_other ⟨huse, rfl⟩ hc
      · exact hf.topicUnsubscribe hrun hfilter
  | unsubscribeAll c =>
      obtain ⟨i, huse, rfl⟩ := hf
      have hremoved : s.table.Removed c r.1 := TopicTable.removed_topicUnsubscribeAll hrun
      by_cases hc : (s.table.subs i).client = c
      · obtain ⟨j, hj, hother⟩ := hallowed.resolve_left hrouter i huse hc hmesh
        exact hremoved.held_of_other hj (hc ▸ hother)
      · exact hremoved.held_of_other ⟨huse, rfl⟩ hc

theorem advertiseInv_topic (hp : cfg.p2pDynamic = true) {s : AdvertiseState cfg κ R}
    [DecidableEq R] (h : AdvertiseInv s) {op : TopicOp κ} {owner : CStr → Option R}
    (hallowed : TableSuffices s (.topic op owner)) (hop : op.Requested)
    {r : TopicTable cfg κ × List Notify} (hrun : s.table.call op = some r) :
    AdvertiseInv { s with table := r.1, received := sendNotes owner s.received r.2 } := by
  obtain ⟨htable, htells⟩ := TopicTable.call_tells hp h.table hop hrun
  refine ⟨htable, h.mesh, ?_⟩
  by_cases hrouter : ∀ r, s.received r = none
  · intro r' log hr
    cases (sendNotes_none hrouter owner r.2 r').symm.trans hr
  · refine h.knows.sendNotes (htells.withMesh fun f hmesh hheard ↦ ?_) owner
    have hlast := htells.last f
    rw [hheard] at hlast
    obtain ⟨m, hm, hsub⟩ := Option.map_eq_some_iff.mp hheard
    obtain ⟨hmem, hmf⟩ := List.mem_filter.mp (List.mem_of_getLast? hm)
    obtain rfl := of_decide_eq_true hmf
    have hbefore := TopicTable.call_unsubscribed hrun hmem hsub
    cases hlast.mp (held_of_tableSuffices hallowed hrouter hrun hmesh hbefore)

variable [DecidableEq R]

omit [DecidableEq κ] in
theorem AdvertiseInv.meshTells {s : AdvertiseState cfg κ R} (h : AdvertiseInv s) {r : MeshResult}
    (htells : MeshTells s.table s.mesh r) (owner : CStr → Option R) :
    AdvertiseInv { s with mesh := r.1, received := sendNotes owner s.received (notesOf r.2) } :=
  ⟨h.table, htells.filters, h.knows.sendNotes htells.tells owner⟩

theorem advertiseInv_step (hp : cfg.p2pDynamic = true) {s s' : AdvertiseState cfg κ R}
    (h : AdvertiseInv s) {e : AdvertiseStep κ R} (hallowed : TableSuffices s e)
    (hstep : advertiseStep s e = some s') : AdvertiseInv s' := by
  cases e with
  | topic op owner =>
      rw [advertiseStep] at hstep
      split_ifs at hstep with hop
      obtain ⟨r, hrun, rfl⟩ := Option.map_eq_some_iff.mp hstep
      exact advertiseInv_topic hp h hallowed hop hrun
  | accept fd =>
      cases hstep
      exact h.meshTells (meshIngressAccept_tells h.mesh fd) fun _ ↦ none
  | packet env i recvd owner =>
      cases hstep
      exact h.meshTells (meshIngressHandleClient_tells hp h.mesh env i recvd) owner
  | retry i now sendOk owner =>
      cases hstep
      exact h.meshTells (meshInflightRetry_tells hp h.mesh i now sendOk) owner
  | remote env pub owner =>
      cases hstep
      exact h.meshTells (publishRemote_tells hp h.mesh env (.value pub)) owner
  | connect r =>
      rw [advertiseStep] at hstep
      split at hstep
      · cases hstep
        refine ⟨h.table, h.mesh, fun r' log hr f ↦ ?_⟩
        dsimp only at hr ⊢
        by_cases hrr : r' = r
        · subst hrr
          rw [Function.update_self] at hr
          cases hr
          rw [TopicTable.heard_advertiseLocalSubsTo]
          exact (or_iff_left_of_imp (hallowed f)).symm
        · rw [Function.update_of_ne hrr] at hr
          exact h.knows r' log hr f
      · cases hstep
  | disconnect r =>
      cases hstep
      refine ⟨h.table, h.mesh, fun r' log hr f ↦ ?_⟩
      dsimp only at hr ⊢
      by_cases hrr : r' = r
      · subst hrr
        rw [Function.update_self] at hr
        cases hr
      · rw [Function.update_of_ne hrr] at hr
        exact h.knows r' log hr f

omit [DecidableEq κ] [DecidableEq R] in
theorem advertiseInv_start [Inhabited κ] : AdvertiseInv (.start cfg κ R) where
  table i x hx := by cases (TopicTable.sub_init i).symm.trans hx
  mesh _ _ h := nomatch h
  knows _ _ h := nomatch h

/-- In every run: as long as no client of the MQTT listener gives up, while a router is connected,
a filter that then only mesh-ingress clients hold, and no router connects while there is such a
filter, every connected router was told last of each filter whether a client of either listener
holds it. -/
theorem filters_advertised [Inhabited κ] (hp : cfg.p2pDynamic = true)
    {s : AdvertiseState cfg κ R} (h : Reach (advertiseSystem cfg κ R)
      (fun s _ e ↦ TableSuffices s e) (.start cfg κ R) () s ()) : Advertised s := by
  have hinv : AdvertiseInv s := h.invariant (I := fun s _ ↦ AdvertiseInv s) advertiseInv_start
    fun _ hI hallowed hs ↦ advertiseInv_step hp hI hallowed hs
  exact hinv.advertised

end

/-! ## A filter of both listeners -/

instance [DecidableEq κ] (s : AdvertiseState cfg κ R) (i : Slot cfg) : Decidable (s.HeldOn i) :=
  inferInstanceAs (Decidable (_ → ∃ _, _ ∧ _))

instance [DecidableEq κ] [Fintype R] (s : AdvertiseState cfg κ R) : DecidablePred (TableSuffices s)
  | .topic (.unsubscribe _ _) _ | .topic (.unsubscribeAll _) _ =>
      inferInstanceAs (Decidable (_ ∨ _))
  | .connect _ => decidable_of_iff
      (∀ i j, (s.mesh i).inUse = true → (s.mesh i).subInUse j = true →
        s.table.Held ((s.mesh i).subs j))
      ⟨fun h _ ⟨i, j, huse, hsub, hf⟩ ↦ hf ▸ h i j huse hsub,
        fun h i j huse hsub ↦ h _ ⟨i, j, huse, hsub, rfl⟩⟩
  | .topic (.subscribe _ _ _) _ | .accept _ | .packet _ _ _ _ | .retry _ _ _ _ | .remote _ _ _
  | .disconnect _ => isTrue trivial

namespace AdvertiseSample

def filter : CStr := [0x61]

def env : MeshEnv := ⟨0, fun _ ↦ true⟩

def noOwner : CStr → Option Unit := fun _ ↦ none

/-- A mesh-ingress client connects and subscribes to `a`. -/
def meshSubscribes : List (AdvertiseStep ℕ Unit) :=
  [.accept 4, .packet env ⟨0, MESH_INGRESS_MAX_CLIENTS_pos⟩
    (some ⟨0x82, 6, [0, 1, 0, 1, 0x61, 0]⟩) noOwner]

/-- Client `c` of the MQTT listener subscribes to it, and unsubscribes. -/
def subscribes (c : ℕ) : AdvertiseStep ℕ Unit := .topic (.subscribe c filter 1) noOwner
def unsubscribes (c : ℕ) : AdvertiseStep ℕ Unit := .topic (.unsubscribe c filter) noOwner

/-- Two clients of the MQTT listener have it when a router connects, and one gives it up. -/
def shared : List (AdvertiseStep ℕ Unit) :=
  meshSubscribes ++ [subscribes 0, subscribes 1, .connect (), unsubscribes 0]

/-- One has it when a router connects, and gives it up. -/
def withdrawn : List (AdvertiseStep ℕ Unit) :=
  meshSubscribes ++ [subscribes 0, .connect (), unsubscribes 0]

/-- Only the mesh-ingress client has it when a router connects. -/
def unmentioned : List (AdvertiseStep ℕ Unit) := meshSubscribes ++ [.connect ()]

def system : System (AdvertiseState Config.posix ℕ Unit) (AdvertiseStep ℕ Unit) Unit :=
  advertiseSystem Config.posix ℕ Unit

def run (es : List (AdvertiseStep ℕ Unit)) : Option (AdvertiseState Config.posix ℕ Unit × Unit) :=
  Observer.run system (.start Config.posix ℕ Unit, ()) es

/-- Only a mesh-ingress client holds the filter, and the router was told last of it `told`. -/
def OnlyMesh (told : Option Bool) (r : AdvertiseState Config.posix ℕ Unit × Unit) : Prop :=
  MeshHeld r.1.mesh filter ∧ ¬ r.1.table.Held filter ∧
    (r.1.received ()).map (heard · filter) = some told

instance (told : Option Bool) : DecidablePred (OnlyMesh told) :=
  fun _ ↦ inferInstanceAs (Decidable (_ ∧ _ ∧ _))

theorem OnlyMesh.not_advertised {told : Option Bool}
    {r : AdvertiseState Config.posix ℕ Unit × Unit} (h : OnlyMesh told r)
    (htold : told ≠ some true) : ¬ Advertised r.1 := by
  obtain ⟨hmesh, -, hlast⟩ := h
  obtain ⟨log, hlog, rfl⟩ := Option.map_eq_some_iff.mp hlast
  exact fun hall ↦ htold ((hall () log hlog filter).1 (.inr hmesh))

end AdvertiseSample

open AdvertiseSample

theorem shared_filter_told : ∃ s, run shared = some (s, ()) ∧ MeshHeld s.mesh filter ∧
    (s.received ()).map (heard · filter) = some (some true) ∧ Advertised s := by
  have hrun : (run shared).map (fun r ↦ decide (MeshHeld r.1.mesh filter ∧
      (r.1.received ()).map (heard · filter) = some (some true))) = some true := by
    decide +kernel
  obtain ⟨⟨s, _⟩, hs, hfinal⟩ := Option.map_eq_some_iff.mp hrun
  obtain ⟨hmesh, htold⟩ := of_decide_eq_true hfinal
  refine ⟨s, hs, hmesh, htold, filters_advertised rfl ?_⟩
  have hchecked : checked system (fun s _ e ↦ TableSuffices s e)
      (.start Config.posix ℕ Unit) () shared = true := by
    decide +kernel
  exact Reach.start.run_of_checked hchecked hs

/-- The last client of the MQTT listener withdraws the filter, and a new router is not told of
it, while a mesh-ingress client holds it. -/
theorem mesh_filter_not_told :
    (∃ s, Reach system (fun _ _ _ ↦ True) (.start Config.posix ℕ Unit) () s () ∧
      OnlyMesh (some false) (s, ()) ∧ ¬ Advertised s) ∧
    ∃ s, Reach system (fun _ _ _ ↦ True) (.start Config.posix ℕ Unit) () s () ∧
      OnlyMesh none (s, ()) ∧ ¬ Advertised s := by
  have hrun : (run withdrawn).map (fun r ↦ decide (OnlyMesh (some false) r)) = some true := by
    decide +kernel
  have hrun' : (run unmentioned).map (fun r ↦ decide (OnlyMesh none r)) = some true := by
    decide +kernel
  obtain ⟨⟨s, _⟩, hs, hfinal⟩ := Option.map_eq_some_iff.mp hrun
  obtain ⟨⟨s', _⟩, hs', hfinal'⟩ := Option.map_eq_some_iff.mp hrun'
  have honly := of_decide_eq_true hfinal
  have honly' := of_decide_eq_true hfinal'
  exact ⟨⟨s, Reach.start.run (fun _ _ _ _ ↦ trivial) hs, honly, honly.not_advertised (by decide)⟩,
    s', Reach.start.run (fun _ _ _ _ ↦ trivial) hs', honly', honly'.not_advertised (by decide)⟩

end MqttBroker
