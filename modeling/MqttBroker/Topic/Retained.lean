import MqttBroker.Client.PacketIds
import MqttBroker.Lib.Replay
import MqttBroker.Topic.FanOut

/-!
# The retained store over a history of publishes

The slots of the retained store hold a map from topics to messages.  Each publish
with RETAIN writes the map at its topic or erases it there, as far as there are
slots, and `topic_deliver_retained` sends from it what `packet_build_publish` accepts.
-/

namespace MqttBroker

variable {cfg : Config} {κ : Type}

/-! ## The map in the slots -/

namespace RetainStore

def entry (retains : RetainStore) (i : Fin TOPIC_RETAIN_MAX) : RetainEntry :=
  match retains with
  | some r => r i
  | none => default

/-- The store holds this message for the topic. -/
def Has (retains : RetainStore) (topic : CStr) (v : Bytes × UInt8) : Prop :=
  ∃ i, retains.entry i = ⟨topic, v.1, v.2, true⟩

/-- No two entries in use are for one topic. -/
def Distinct (retains : RetainStore) : Prop :=
  ∀ i j, (retains.entry i).inUse = true → (retains.entry j).inUse = true →
    (retains.entry i).topic = (retains.entry j).topic → i = j

def Full (retains : RetainStore) : Prop := ∀ i, (retains.entry i).inUse = true

/-- The entries hold strings and payloads that fit the arrays of a message. -/
def Fit (retains : RetainStore) : Prop :=
  ∀ i, (retains.entry i).inUse = true → (retains.entry i).topic.length < MQTT_TOPIC_MAX ∧
    (retains.entry i).payload.length ≤ MQTT_PAYLOAD_MAX

/-- Entry `i` becomes `e`, where `topic` was and is at most the topic of entry `i`. -/
structure Puts (retains retains' : RetainStore) (topic : CStr) (i : Fin TOPIC_RETAIN_MAX)
    (e : RetainEntry) : Prop where
  entry : ∀ j, retains'.entry j = if j = i then e else retains.entry j
  new : e.inUse = true → e.topic = topic
  old : (retains.entry i).inUse = true → (retains.entry i).topic = topic
  others : ∀ j, j ≠ i → (retains.entry j).inUse = true → (retains.entry j).topic ≠ topic

namespace Puts

variable {retains retains' : RetainStore} {topic : CStr} {i : Fin TOPIC_RETAIN_MAX} {e : RetainEntry}
  (h : Puts retains retains' topic i e)

include h

theorem distinct (hd : retains.Distinct) : retains'.Distinct := by
  intro j k hj hk hjk
  rw [h.entry] at hj hjk
  rw [h.entry] at hk hjk
  split_ifs at hj hk hjk with hji hki hki
  · exact hji.trans hki.symm
  · exact absurd (hjk.symm.trans (h.new hj)) (h.others k hki hk)
  · exact absurd (hjk.trans (h.new hk)) (h.others j hji hj)
  · exact hd j k hj hk hjk

theorem fit (hf : retains.Fit) (he : e.inUse = true → e.topic.length < MQTT_TOPIC_MAX ∧
    e.payload.length ≤ MQTT_PAYLOAD_MAX) : retains'.Fit := by
  intro j hj
  rw [h.entry] at hj ⊢
  split_ifs at hj ⊢
  · exact he hj
  · exact hf j hj

theorem has_iff (t : CStr) (v : Bytes × UInt8) :
    retains'.Has t v ↔ e = ⟨t, v.1, v.2, true⟩ ∨ t ≠ topic ∧ retains.Has t v := by
  constructor
  · rintro ⟨j, hj⟩
    rw [h.entry] at hj
    split_ifs at hj with hji
    · exact Or.inl hj
    · refine Or.inr ⟨?_, j, hj⟩
      have hne := h.others j hji (by rw [hj])
      rwa [hj] at hne
  · rintro (he | ⟨hne, j, hj⟩)
    · exact ⟨i, by rw [h.entry, if_pos rfl, he]⟩
    · refine ⟨j, ?_⟩
      rw [h.entry, if_neg, hj]
      rintro rfl
      exact hne (by simpa [hj] using h.old)

end Puts

variable (retains : RetainStore)

def Lacks (topic : CStr) : Prop :=
  ∀ i, (retains.entry i).inUse = true → (retains.entry i).topic ≠ topic

instance (topic : CStr) : Decidable (retains.Lacks topic) := inferInstanceAs (Decidable (∀ _, _))

instance : Decidable retains.Full := inferInstanceAs (Decidable (∀ _, _))

/-- What a publish writes to the map. -/
def write (pub : MqttPublish) : Option (CStr × Option (Bytes × UInt8)) :=
  if pub.retain = 0 then none
  else if pub.payload = [] then some (pub.topic, none)
  else if retains.Lacks pub.topic ∧ retains.Full then none
  else some (pub.topic, some (pub.payload, pub.qos))

variable {retains} {retains' : RetainStore} {pub : MqttPublish}

/-- A publish changes the map as `write` says. -/
structure Follows (retains retains' : RetainStore) (pub : MqttPublish) : Prop where
  distinct : retains'.Distinct
  fit : retains'.Fit
  has : ∀ t v, retains'.Has t v ↔ retains.write pub = some (t, some v) ∨
    (∀ u, retains.write pub ≠ some (t, u)) ∧ retains.Has t v

theorem follows_same (hd : retains.Distinct) (hf : retains.Fit) (hw : retains.write pub = none) :
    Follows retains retains pub := ⟨hd, hf, fun t v ↦ by simp [hw]⟩

theorem entry_ensure {callocOk : Bool} {r : Fin TOPIC_RETAIN_MAX → RetainEntry}
    (h : retainStoreEnsure retains callocOk = some r) (i : Fin TOPIC_RETAIN_MAX) :
    retains.entry i = r i := by
  cases retains with
  | some r' =>
      cases h
      rfl
  | none =>
      unfold retainStoreEnsure at h
      dsimp only at h
      split_ifs at h
      cases h
      rfl

theorem Follows.congr {a b : RetainStore} (h : Follows retains a pub)
    (heq : ∀ i, b.entry i = a.entry i) : Follows retains b pub := by
  have hentry : b.entry = a.entry := funext heq
  obtain ⟨hd, hf, hhas⟩ := h
  refine ⟨?_, ?_, fun t v ↦ ?_⟩
  · unfold Distinct
    rwa [hentry]
  · unfold Fit
    rwa [hentry]
  · unfold Has at hhas ⊢
    rw [hentry]
    exact hhas t v

/-- One entry is written, as `write` says. -/
theorem Puts.follows {i : Fin TOPIC_RETAIN_MAX} {e : RetainEntry} {u : Option (Bytes × UInt8)}
    (h : Puts retains retains' pub.topic i e) (hd : retains.Distinct) (hf : retains.Fit)
    (hfits : pub.Fits) (hw : retains.write pub = some (pub.topic, u))
    (he : ∀ t v, e = ⟨t, v.1, v.2, true⟩ ↔ t = pub.topic ∧ u = some v)
    (hpayload : e.inUse = true → e.payload = pub.payload) : Follows retains retains' pub where
  distinct := h.distinct hd
  fit := h.fit hf fun huse ↦ by
    rw [h.new huse, hpayload huse]
    exact hfits
  has t v := by
    rw [h.has_iff, he, hw]
    simp only [Option.some.injEq, Prod.mk.injEq, ne_eq, not_and]
    constructor
    · rintro (⟨rfl, rfl⟩ | ⟨hne, hhas⟩)
      · exact Or.inl ⟨rfl, rfl⟩
      · exact Or.inr ⟨fun _ heq ↦ absurd heq.symm hne, hhas⟩
    · rintro (⟨rfl, rfl⟩ | ⟨hother, hhas⟩)
      · exact Or.inl ⟨rfl, rfl⟩
      · exact Or.inr ⟨fun heq ↦ hother u heq.symm rfl, hhas⟩

theorem follows_update {r : Fin TOPIC_RETAIN_MAX → RetainEntry}
    (hr : ∀ i, retains.entry i = r i) (hretain : pub.retain ≠ 0) (hfits : pub.Fits)
    (hd : retains.Distinct) (hf : retains.Fit) :
    Follows retains (some (retainUpdate r pub)) pub := by
  have htaken : pub.topic.take (MQTT_TOPIC_MAX - 1) = pub.topic :=
    List.take_of_length_le (by have := hfits.1; omega)
  have hputs : ∀ (i : Fin TOPIC_RETAIN_MAX) (e : RetainEntry), (e.inUse = true → e.topic = pub.topic) →
      ((r i).inUse = true → (r i).topic = pub.topic) →
      (∀ j, j ≠ i → (r j).inUse = true → (r j).topic ≠ pub.topic) →
      Puts retains (some (Function.update r i e)) pub.topic i e := by
    intro i e he hi hothers
    refine ⟨fun j ↦ ?_, he, by rwa [hr], fun j hj ↦ by rw [hr]; exact hothers j hj⟩
    rw [hr]
    exact Function.update_apply r i e j
  have hstore : ∀ i : Fin TOPIC_RETAIN_MAX, ((r i).inUse = true → (r i).topic = pub.topic) →
      (∀ j, j ≠ i → (r j).inUse = true → (r j).topic ≠ pub.topic) →
      retains.write pub = some (pub.topic, some (pub.payload, pub.qos)) →
      Follows retains (some (Function.update r i
        ⟨pub.topic.take (MQTT_TOPIC_MAX - 1), pub.payload, pub.qos, true⟩)) pub := by
    intro i hi hothers hw
    refine (hputs i _ (fun _ ↦ htaken) hi hothers).follows hd hf hfits hw (fun t v ↦ ?_) fun _ ↦ rfl
    rw [htaken, RetainEntry.mk.injEq, Option.some.injEq, Prod.ext_iff]
    exact ⟨fun h ↦ ⟨h.1.symm, h.2.1, h.2.2.1⟩, fun h ↦ ⟨h.1.symm, h.2.1, h.2.2, rfl⟩⟩
  unfold retainUpdate
  dsimp only
  cases hfound : (List.finRange TOPIC_RETAIN_MAX).find? fun i ↦
      (r i).inUse && (r i).topic = pub.topic with
  | some i =>
      have hi : (r i).inUse = true ∧ (r i).topic = pub.topic := by
        simpa using List.find?_some hfound
      have hothers : ∀ j, j ≠ i → (r j).inUse = true → (r j).topic ≠ pub.topic := by
        intro j hji hj htopic
        exact hji (hd j i (by rwa [hr]) (by rw [hr]; exact hi.1) (by rw [hr, hr, htopic, hi.2]))
      have hlacks : ¬ retains.Lacks pub.topic := fun h ↦
        h i (by rw [hr]; exact hi.1) (by rw [hr]; exact hi.2)
      split_ifs with hempty
      · refine (hputs i _ (by simp) (fun _ ↦ hi.2) hothers).follows (u := none) hd hf hfits ?_ ?_
          (by simp)
        · simp [write, hretain, hempty]
        · simp
      · exact hstore i (fun _ ↦ hi.2) hothers (by simp [write, hretain, hempty, hlacks])
  | none =>
      have hlacks : ∀ j, (r j).inUse = true → (r j).topic ≠ pub.topic := by
        intro j
        simpa using List.find?_eq_none.mp hfound j (List.mem_finRange j)
      have hlacks' : retains.Lacks pub.topic := fun j ↦ by
        rw [hr]
        exact hlacks j
      have hsame : ∀ i, RetainStore.entry (some r) i = retains.entry i := fun i ↦ (hr i).symm
      split_ifs with hempty
      · have hw : retains.write pub = some (pub.topic, none) := by simp [write, hretain, hempty]
        refine Follows.congr ⟨hd, hf, fun t v ↦ ⟨fun hhas ↦ Or.inr ⟨fun u ↦ ?_, hhas⟩, ?_⟩⟩ hsame
        · obtain ⟨j, hj⟩ := hhas
          have hne := hlacks' j (by rw [hj])
          rw [hj] at hne
          rw [hw]
          simp [hne.symm]
        · rintro (h | h)
          · simp [hw] at h
          · exact h.2
      · cases hfree : (List.finRange TOPIC_RETAIN_MAX).find? fun i ↦ !(r i).inUse with
        | some i =>
            have hi : (r i).inUse = false := by simpa using List.find?_some hfree
            have hnotFull : ¬ retains.Full := fun h ↦ by simpa [hr, hi] using h i
            exact hstore i (fun huse ↦ by simp [hi] at huse) (fun j _ ↦ hlacks j)
              (by simp [write, hretain, hempty, hnotFull])
        | none =>
            have hfull : retains.Full := fun i ↦ by
              rw [hr]
              simpa using List.find?_eq_none.mp hfree i (List.mem_finRange i)
            exact (follows_same hd hf (by simp [write, hretain, hempty, hlacks', hfull])).congr hsame

theorem follows_publish (hd : retains.Distinct) (hf : retains.Fit) (hfits : pub.Fits)
    (h : retainPublish retains true pub = some retains') : Follows retains retains' pub := by
  unfold retainPublish at h
  split_ifs at h with hretain
  · cases h
    exact follows_same hd hf (if_pos hretain)
  · split at h
    · cases h
    · rename_i r hensure
      cases h
      exact follows_update (entry_ensure hensure) hretain hfits hd hf

end RetainStore

/-! ## Histories -/

/-- A call of `topic_publish_internal` with the store before and after it. -/
structure RetainEvent where
  before : RetainStore
  pub : MqttPublish
  after : RetainStore

namespace RetainEvent

/-- The message was stored for its topic. -/
def Stored (e : RetainEvent) : Prop :=
  e.pub.retain ≠ 0 ∧ e.pub.payload ≠ [] ∧ e.after.Has e.pub.topic (e.pub.payload, e.pub.qos)

/-- The message erased its topic. -/
def Cleared (e : RetainEvent) : Prop := e.pub.retain ≠ 0 ∧ e.pub.payload = []

end RetainEvent

variable [DecidableEq κ]

/-- The publishes since `topic_init`, with anything else happening in between that
leaves the retained store alone. -/
inductive RetainRun : List RetainEvent → Broker cfg κ → Prop where
  | init {b : Broker cfg κ} (hempty : ∀ i, (b.retains.entry i).inUse = false) : RetainRun [] b
  | publish {hist : List RetainEvent} {b : Broker cfg κ} {env : Env κ} {pub : MqttPublish}
      {propagate : Bool} {r : Published cfg κ} (h : RetainRun hist b) (hfits : pub.Fits)
      (hmemory : env.callocOk = true) (hrun : topicPublishInternal env b pub propagate = some r) :
      RetainRun (hist ++ [⟨b.retains, pub, r.broker.retains⟩]) r.broker
  | other {hist : List RetainEvent} {b b' : Broker cfg κ} (h : RetainRun hist b)
      (hsame : b'.retains = b.retains) : RetainRun hist b'

theorem topicPublishInternal_retains {env : Env κ} {b : Broker cfg κ} {pub : MqttPublish}
    {propagate : Bool} {r : Published cfg κ} (hmemory : env.callocOk = true)
    (hrun : topicPublishInternal env b pub propagate = some r) :
    retainPublish b.retains true pub = some r.broker.retains := by
  unfold topicPublishInternal at hrun
  rw [hmemory] at hrun
  split at hrun
  · rename_i hnone
    unfold retainPublish at hnone
    split_ifs at hnone
    cases hb : b.retains <;> simp [retainStoreEnsure, hb] at hnone
  · rename_i retains hretain
    obtain ⟨r', -, rfl⟩ := Option.map_eq_some_iff.mp hrun
    exact hretain

/-- The events of the history follow `write`, and the store holds what they wrote. -/
structure RetainInv (hist : List RetainEvent) (retains : RetainStore) : Prop where
  distinct : retains.Distinct
  fit : retains.Fit
  follows : ∀ e ∈ hist, e.before.Follows e.after e.pub
  same : ∀ e ∈ hist, e.pub.retain = 0 → e.after = e.before
  has : ∀ t v, retains.Has t v ↔ Replay.replay (hist.map fun e ↦ e.before.write e.pub) t = some v

theorem RetainRun.inv {hist : List RetainEvent} {b : Broker cfg κ} (h : RetainRun hist b) :
    RetainInv hist b.retains := by
  induction h with
  | @init b hempty =>
      refine ⟨fun i _ hi ↦ ?_, fun i hi ↦ ?_, by simp, by simp, fun t v ↦ ?_⟩
      · simp [hempty] at hi
      · simp [hempty] at hi
      · refine iff_of_false (fun ⟨i, hi⟩ ↦ ?_) (by simp)
        have huse := hempty i
        rw [hi] at huse
        cases huse
  | @publish hist b env pub propagate r h hfits hmemory hrun ih =>
      have hretain := topicPublishInternal_retains hmemory hrun
      have hfollows := RetainStore.follows_publish ih.distinct ih.fit hfits hretain
      refine ⟨hfollows.distinct, hfollows.fit, ?_, ?_, fun t v ↦ ?_⟩
      · simpa [or_imp, forall_and] using ⟨ih.follows, hfollows⟩
      · have hnow : pub.retain = 0 → r.broker.retains = b.retains := fun hzero ↦ by
          rw [retainPublish, if_pos hzero] at hretain
          exact (Option.some.inj hretain).symm
        simpa [or_imp, forall_and] using ⟨ih.same, hnow⟩
      · rw [List.map_append, List.map_singleton, Replay.replay_concat, Replay.apply_eq_some_iff,
          hfollows.has, ih.has]
  | other _ hsame ih => rwa [hsame]

namespace RetainEvent

variable {e : RetainEvent}

omit [DecidableEq κ] in
/-- Without an entry for the topic and with all slots in use nothing is written. -/
theorem write_message (hretain : e.pub.retain ≠ 0) (hne : e.pub.payload ≠ []) :
    (e.before.Lacks e.pub.topic ∧ e.before.Full ∧ e.before.write e.pub = none) ∨
      ¬ (e.before.Lacks e.pub.topic ∧ e.before.Full) ∧
        e.before.write e.pub = some (e.pub.topic, some (e.pub.payload, e.pub.qos)) := by
  unfold RetainStore.write
  rw [if_neg hretain, if_neg hne]
  split_ifs with hfull
  · exact Or.inl ⟨hfull.1, hfull.2, rfl⟩
  · exact Or.inr ⟨hfull, rfl⟩

omit [DecidableEq κ] in
theorem stored_iff (h : e.before.Follows e.after e.pub) :
    e.Stored ↔ e.before.write e.pub = some (e.pub.topic, some (e.pub.payload, e.pub.qos)) := by
  constructor
  · rintro ⟨hretain, hne, hhas⟩
    rcases write_message hretain hne with ⟨hlacks, -, hw⟩ | ⟨-, hw⟩
    · rcases (h.has _ _).mp hhas with hw' | ⟨-, i, hi⟩
      · exact hw'
      · exact absurd (by rw [hi]) (hlacks i (by rw [hi]))
    · exact hw
  · intro hw
    refine ⟨fun hzero ↦ ?_, fun hempty ↦ ?_, (h.has _ _).mpr (Or.inl hw)⟩
    · simp [RetainStore.write, hzero] at hw
    · unfold RetainStore.write at hw
      split_ifs at hw
      simp at hw

omit [DecidableEq κ] in
theorem cleared_iff : e.Cleared ↔ e.before.write e.pub = some (e.pub.topic, none) := by
  unfold Cleared RetainStore.write
  split_ifs <;> simp_all

omit [DecidableEq κ] in
/-- A publish writes its message at its topic, or nothing. -/
theorem write_eq {t : CStr} {u : Option (Bytes × UInt8)} (h : e.before.write e.pub = some (t, u)) :
    t = e.pub.topic ∧ ∀ v, u = some v → v = (e.pub.payload, e.pub.qos) := by
  unfold RetainStore.write at h
  split_ifs at h <;> cases h <;> simp

omit [DecidableEq κ] in
theorem write_cases {t : CStr} (h : e.before.Follows e.after e.pub) :
    (∀ u, e.before.write e.pub ≠ some (t, u)) ↔ (e.pub.topic = t → ¬ e.Stored ∧ ¬ e.Cleared) := by
  constructor
  · rintro hother rfl
    exact ⟨fun hs ↦ hother _ ((stored_iff h).mp hs), fun hc ↦ hother _ (cleared_iff.mp hc)⟩
  · intro hno u hw
    obtain ⟨rfl, hv⟩ := write_eq hw
    obtain ⟨hs, hc⟩ := hno rfl
    rcases u with - | v
    · exact hc (cleared_iff.mpr hw)
    · rw [hv v rfl] at hw
      exact hs ((stored_iff h).mpr hw)

end RetainEvent

/-- The message is the last one that was stored for the topic, and none has erased it
since. -/
def LastStored (hist : List RetainEvent) (topic : CStr) (v : Bytes × UInt8) : Prop :=
  ∃ past e later, hist = past ++ e :: later ∧ e.Stored ∧ e.pub.topic = topic ∧
    (e.pub.payload, e.pub.qos) = v ∧
    ∀ e' ∈ later, e'.pub.topic = topic → ¬ e'.Stored ∧ ¬ e'.Cleared

omit [DecidableEq κ] in
theorem RetainInv.has_iff {hist : List RetainEvent} {retains : RetainStore}
    (h : RetainInv hist retains) (topic : CStr) (v : Bytes × UInt8) :
    retains.Has topic v ↔ LastStored hist topic v := by
  rw [h.has, Replay.replay_eq_some_iff]
  constructor
  · rintro ⟨past, later, heq, hlater⟩
    obtain ⟨past, rest, rfl, rfl, hrest⟩ := List.map_eq_append_iff.mp heq
    obtain ⟨e, later, rfl, hw, rfl⟩ := List.map_eq_cons_iff.mp hrest
    obtain ⟨rfl, hv⟩ := RetainEvent.write_eq hw
    obtain rfl := hv v rfl
    refine ⟨past, e, later, rfl, (RetainEvent.stored_iff (h.follows e (by simp))).mpr hw, rfl, rfl,
      fun e' he' ↦ (RetainEvent.write_cases (h.follows e' (by simp [he']))).mp fun u ↦ ?_⟩
    exact hlater _ (List.mem_map_of_mem he') u
  · rintro ⟨past, e, later, rfl, hs, rfl, rfl, hlater⟩
    have hfollows := h.follows e (by simp)
    refine ⟨_, _, by rw [List.map_append, List.map_cons, (RetainEvent.stored_iff hfollows).mp hs], ?_⟩
    intro w hw u
    obtain ⟨e', he', rfl⟩ := List.mem_map.mp hw
    exact (RetainEvent.write_cases (h.follows e' (by simp [he']))).mpr (hlater e' he') u

/-! ## Delivery to a new subscription -/

/-- The next `n` packet ids of a connection. -/
def Client.drawIds : ℕ → UInt16 → List UInt16
  | 0, _ => []
  | n + 1, id => advancePacketId id :: drawIds n (advancePacketId id)

theorem exists_counterAt (id : UInt16) : ∃ k, id = counterAt k := by
  by_cases hzero : id = 0
  · exact ⟨0, hzero⟩
  · have hpos : id.toNat ≠ 0 := fun h ↦ hzero (UInt16.toNat_inj.mp h)
    have hlt : id.toNat < 65536 := id.toNat_lt
    refine ⟨id.toNat - 1 + 1, UInt16.toNat_inj.mp ?_⟩
    rw [counterAt, counterId_toNat]
    omega

theorem drawIds_counterAt (n k : ℕ) :
    Client.drawIds n (counterAt k) = (List.range n).map fun j ↦ counterId (k + j) := by
  induction n generalizing k with
  | zero => rfl
  | succ n ih =>
      rw [Client.drawIds, advancePacketId_counterAt, List.range_succ_eq_map, List.map_cons,
        List.map_map]
      refine congrArg _ ((ih (k + 1)).trans (List.map_congr_left fun j _ ↦ ?_))
      simp only [Function.comp_apply]
      rw [show k + 1 + j = k + (j + 1) by omega]

/-- The counter gives no id twice within a round. -/
theorem nodup_drawIds {n : ℕ} (hn : n ≤ 65535) (id : UInt16) :
    (Client.drawIds n id).Nodup ∧ 0 ∉ Client.drawIds n id := by
  obtain ⟨k, rfl⟩ := exists_counterAt id
  rw [drawIds_counterAt]
  constructor
  · refine List.Nodup.map_on (fun i hi j hj hij ↦ ?_) List.nodup_range
    have hi := List.mem_range.mp hi
    have hj := List.mem_range.mp hj
    have heq := congrArg UInt16.toNat hij
    rw [counterId_toNat, counterId_toNat] at heq
    omega
  · simp [counterId_ne_zero]

/-- An entry that matches the filter and that `packet_build_publish` accepts. -/
def RetainEntry.due (filter : CStr) (e : RetainEntry) : Bool :=
  e.inUse && topicMatch filter e.topic && e.topic ≠ [] && !hasWildcard e.topic

/-- The PUBLISH for a retained message. -/
structure RetainEntry.Delivered (q : UInt8) (e : RetainEntry) (pub : MqttPublish) : Prop where
  topic : pub.topic = e.topic
  payload : pub.payload = e.payload
  qos : pub.qos ≤ q ∧ pub.qos ≤ e.qos ∧ (pub.qos = q ∨ pub.qos = e.qos)
  retain : pub.retain = 1
  dup : pub.dup = 0
  id : pub.qos = 0 → pub.packetId = 0

def packetIds (pubs : List MqttPublish) : List UInt16 :=
  (pubs.filter fun pub ↦ 0 < pub.qos).map MqttPublish.packetId

theorem drawIds_sublist {n m : ℕ} (h : n ≤ m) (id : UInt16) :
    (Client.drawIds n id).Sublist (Client.drawIds m id) := by
  induction n generalizing m id with
  | zero => exact List.nil_sublist _
  | succ n ih =>
      obtain ⟨m, rfl⟩ : ∃ k, m = k + 1 := ⟨m - 1, by omega⟩
      exact (ih (Nat.le_of_succ_le_succ h) _).cons_cons _

section

variable {e : RetainEntry} (q : UInt8) (c : Client)

theorem retainedPublish_delivered (hlen : e.topic.length < MQTT_TOPIC_MAX) :
    e.Delivered q (retainedPublish e q c).1 := by
  have htaken : e.topic.take (MQTT_TOPIC_MAX - 1) = e.topic := List.take_of_length_le (by omega)
  have hmin : ∀ s : UInt8, (if q < s then q else s) ≤ q ∧ (if q < s then q else s) ≤ s ∧
      ((if q < s then q else s) = q ∨ (if q < s then q else s) = s) := by
    intro s
    split_ifs with hlt
    · exact ⟨UInt8.le_refl q, UInt8.le_of_lt hlt, Or.inl rfl⟩
    · exact ⟨UInt8.not_lt.mp hlt, UInt8.le_refl s, Or.inr rfl⟩
  refine ⟨htaken, rfl, hmin e.qos, rfl, rfl, fun hzero ↦ ?_⟩
  have hzero : (if q < e.qos then q else e.qos) = 0 := hzero
  simp [retainedPublish, hzero]

/-- The id of a message with QoS is the connection's next one. -/
theorem retainedPublish_id :
    (0 < (retainedPublish e q c).1.qos ∧
      (retainedPublish e q c).1.packetId = Client.advancePacketId c.nextPacketId ∧
      (retainedPublish e q c).2.nextPacketId = Client.advancePacketId c.nextPacketId) ∨
    ¬ 0 < (retainedPublish e q c).1.qos ∧
      (retainedPublish e q c).2.nextPacketId = c.nextPacketId := by
  unfold retainedPublish
  dsimp only
  generalize (if q < e.qos then q else e.qos) = qos
  split_ifs with hpos
  · exact Or.inl ⟨hpos, rfl, rfl⟩
  · exact Or.inr ⟨hpos, rfl⟩

/-- Under the checks of `packet_build_publish`, the frame is built for a due entry only. -/
theorem build_iff_due {filter : CStr} (hq : q ≤ 2) (huse : e.inUse = true)
    (hmatch : topicMatch filter e.topic = true)
    (hfit : e.topic.length < MQTT_TOPIC_MAX ∧ e.payload.length ≤ MQTT_PAYLOAD_MAX) :
    (∃ buf, packetBuildPublish (retainedPublish e q c).1 (MQTT_MAX_PACKET_SIZE + 8) = some buf) ↔
      e.due filter = true := by
  have hd := retainedPublish_delivered q c hfit.1
  constructor
  · rintro ⟨buf, hbuild⟩
    have hs := sendable_of_build hbuild
    have hne := hs.topic_ne
    have hplain := hs.no_wildcard
    rw [hd.topic] at hne hplain
    simp [RetainEntry.due, huse, hmatch, hne, hplain]
  · intro hdue
    simp only [RetainEntry.due, huse, hmatch, Bool.true_and, Bool.and_eq_true, decide_eq_true_eq,
      Bool.not_eq_true'] at hdue
    have hs : (retainedPublish e q c).1.Sendable := by
      refine ⟨?_, ?_, ?_, ?_, fun hpos ↦ ?_, ?_⟩
      · rw [hd.topic]
        exact hfit.1
      · rw [hd.topic]
        exact hdue.1
      · rw [hd.topic]
        exact hdue.2
      · exact UInt8.le_trans hd.qos.1 hq
      · rcases retainedPublish_id (e := e) q c with ⟨-, hid, -⟩ | ⟨hnot, -⟩
        · rw [hid]
          exact Client.advancePacketId_ne_zero _
        · exact absurd hpos hnot
      · rw [hd.payload]
        exact hfit.2
    obtain ⟨enc, -, hbuild⟩ := packetBuildPublish_eq hs
    exact ⟨_, hbuild⟩

end

theorem collectRetained_due {filter : CStr} {q : UInt8} (hq : q ≤ 2) {l : List RetainEntry}
    (hfit : ∀ e ∈ l, e.inUse = true → e.topic.length < MQTT_TOPIC_MAX ∧
      e.payload.length ≤ MQTT_PAYLOAD_MAX) (c : Client) (acc : List (MqttPublish × Bytes)) :
    ∃ pkts, (l.foldl (collectRetained filter q) (c, acc)).2 = acc ++ pkts ∧
      List.Forall₂ (RetainEntry.Delivered q) (l.filter (RetainEntry.due filter)) (pkts.map Prod.fst) ∧
      (∀ p ∈ pkts, packetBuildPublish p.1 (MQTT_MAX_PACKET_SIZE + 8) = some p.2) ∧
      (packetIds (pkts.map Prod.fst)).Sublist (Client.drawIds l.length c.nextPacketId) := by
  induction l generalizing c acc with
  | nil => exact ⟨[], by simp, by simp, by simp, by simp [packetIds]⟩
  | cons e l ih =>
      have ih := ih fun e' he' ↦ hfit e' (List.mem_cons_of_mem e he')
      have hmono := drawIds_sublist (Nat.le_succ l.length)
      rw [List.foldl_cons, List.length_cons]
      unfold collectRetained
      dsimp only
      split_ifs with hskip
      · have hnot : e.due filter = false := by
          rcases hskip with h | h <;> simp [RetainEntry.due] at h ⊢ <;> simp [h]
        obtain ⟨pkts, hpkts, hdel, hbuild, hids⟩ := ih c acc
        rw [List.filter_cons_of_neg (by simp [hnot])]
        exact ⟨pkts, hpkts, hdel, hbuild, hids.trans (hmono _)⟩
      · obtain ⟨huse, hmatch⟩ := not_or.mp hskip
        have huse : e.inUse = true := by simpa using huse
        have hmatch : topicMatch filter e.topic = true := by simpa using hmatch
        have hfit := hfit e List.mem_cons_self huse
        have hiff := build_iff_due q c hq huse hmatch hfit
        have hid := retainedPublish_id (e := e) q c
        cases hframe : packetBuildPublish (retainedPublish e q c).1 (MQTT_MAX_PACKET_SIZE + 8) with
        | none =>
            have hnot : e.due filter = false := by
              rw [← Bool.not_eq_true, ← hiff]
              simp [hframe]
            obtain ⟨pkts, hpkts, hdel, hbuild, hids⟩ := ih (retainedPublish e q c).2 acc
            rw [List.filter_cons_of_neg (by simp [hnot])]
            refine ⟨pkts, hpkts, hdel, hbuild, ?_⟩
            rcases hid with ⟨-, -, hnext⟩ | ⟨-, hnext⟩
            · rw [hnext] at hids
              exact hids.cons _
            · rw [hnext] at hids
              exact hids.trans (hmono _)
        | some buf =>
            have hdue := hiff.mp ⟨buf, hframe⟩
            obtain ⟨pkts, hpkts, hdel, hbuild, hids⟩ :=
              ih (retainedPublish e q c).2 (acc ++ [((retainedPublish e q c).1, buf)])
            rw [List.filter_cons_of_pos hdue]
            rw [List.append_assoc] at hpkts
            refine ⟨((retainedPublish e q c).1, buf) :: pkts, hpkts,
              .cons (retainedPublish_delivered q c hfit.1) hdel, ?_, ?_⟩
            · simpa using ⟨hframe, fun a b hab ↦ hbuild (a, b) hab⟩
            · rcases hid with ⟨hpos, hid, hnext⟩ | ⟨hnot, hnext⟩
              · rw [hnext] at hids
                simp only [packetIds, List.map_cons, hpos, decide_true, List.filter_cons_of_pos, hid]
                exact hids.cons_cons _
              · rw [hnext] at hids
                simp only [packetIds, List.map_cons, hnot, decide_false, Bool.false_eq_true,
                  not_false_eq_true, List.filter_cons_of_neg]
                exact hids.trans (hmono _)

/-- The frames that `topic_deliver_retained` sends for a filter: one PUBLISH for each
entry that is due, in the order of the slots, with ids newly drawn from the counter. -/
structure RetainDelivery (retains : RetainStore) (c : Client) (filter : CStr) (q : UInt8)
    (pubs : List MqttPublish) (frames : List Bytes) : Prop where
  each : List.Forall₂ (RetainEntry.Delivered q)
    (((List.finRange TOPIC_RETAIN_MAX).map retains.entry).filter (RetainEntry.due filter)) pubs
  built : pubs.map (packetBuildPublish · (MQTT_MAX_PACKET_SIZE + 8)) = frames.map some
  drawn : (packetIds pubs).Sublist (Client.drawIds TOPIC_RETAIN_MAX c.nextPacketId)
  fresh : (packetIds pubs).Nodup ∧ 0 ∉ packetIds pubs

theorem topicDeliverRetained_due {retains : RetainStore} (hf : retains.Fit) (c : Client)
    (filter : CStr) {q : UInt8} (hq : q ≤ 2) (now : ℤ) (sendOk : Bool) :
    ∃ pubs, RetainDelivery retains c filter q pubs
      (topicDeliverRetained retains c filter q now sendOk).2 := by
  have hentries : ∀ e ∈ (List.finRange TOPIC_RETAIN_MAX).map retains.entry, e.inUse = true →
      e.topic.length < MQTT_TOPIC_MAX ∧ e.payload.length ≤ MQTT_PAYLOAD_MAX := by
    intro e he huse
    obtain ⟨i, -, rfl⟩ := List.mem_map.mp he
    exact hf i huse
  obtain ⟨pkts, hpkts, hdel, hbuild, hids⟩ := collectRetained_due hq hentries c []
  have hsent : (topicDeliverRetained retains c filter q now sendOk).2 = pkts.map Prod.snd := by
    cases retains with
    | none =>
        have hnone : (((List.finRange TOPIC_RETAIN_MAX).map (RetainStore.entry none)).filter
            (RetainEntry.due filter)) = [] := by
          simp [RetainStore.entry, RetainEntry.due, default]
        rw [hnone] at hdel
        have hnil : pkts = [] := by simpa using hdel
        rw [hnil]
        rfl
    | some r =>
        rw [List.nil_append] at hpkts
        rw [← hpkts]
        rfl
  rw [List.length_map, List.length_finRange] at hids
  obtain ⟨hnodup, hzero⟩ := nodup_drawIds (by decide : TOPIC_RETAIN_MAX ≤ 65535) c.nextPacketId
  refine ⟨pkts.map Prod.fst, hdel, ?_, hids, hids.nodup hnodup, fun h ↦ hzero (hids.subset h)⟩
  rw [hsent, List.map_map, List.map_map]
  exact List.map_congr_left hbuild

/-- The retained store over every history of publishes: at most one entry for a topic,
which holds the message stored last and not erased since; a message is stored unless
its topic has no entry and all slots are in use; a publish without RETAIN changes
nothing; and a new subscription is sent one PUBLISH for each stored topic that
matches its filter and is neither empty nor has a wildcard. -/
theorem retained_store_law {hist : List RetainEvent} {b : Broker cfg κ} (h : RetainRun hist b) :
    b.retains.Distinct ∧ (∀ topic v, b.retains.Has topic v ↔ LastStored hist topic v) ∧
      (∀ e ∈ hist, e.pub.retain ≠ 0 → e.pub.payload ≠ [] →
        (e.Stored ↔ ¬ (e.before.Lacks e.pub.topic ∧ e.before.Full))) ∧
      (∀ e ∈ hist, e.pub.retain = 0 → e.after = e.before) ∧
      ∀ c filter q now sendOk, q ≤ 2 → ∃ pubs, RetainDelivery b.retains c filter q pubs
        (topicDeliverRetained b.retains c filter q now sendOk).2 := by
  have hinv := h.inv
  refine ⟨hinv.distinct, hinv.has_iff, fun e he hretain hne ↦ ?_, hinv.same,
    fun c filter q now sendOk hq ↦ topicDeliverRetained_due hinv.fit c filter hq now sendOk⟩
  rw [RetainEvent.stored_iff (hinv.follows e he)]
  rcases RetainEvent.write_message hretain hne with ⟨hlacks, hfull, hw⟩ | ⟨hroom, hw⟩
  · exact iff_of_false (by simp [hw]) fun hno ↦ hno ⟨hlacks, hfull⟩
  · exact iff_of_true hw hroom

namespace Sample

def blank : Broker Config.posix ℕ := ⟨topicInit Config.posix ℕ, none, fun _ ↦ default, none⟩

/-- A retained message `x` to a topic. -/
def retained (topic : CStr) : MqttPublish := ⟨topic, [0x78], 0, 1, 0, 0⟩

theorem retained_isSome : (topicPublishInternal env blank (retained [0x74]) true).isSome = true ∧
    (topicPublishInternal env blank (retained [0x2B]) false).isSome = true := by decide

theorem retained_run {topic : CStr} {propagate : Bool} {r : Published Config.posix ℕ}
    (hfits : (retained topic).Fits)
    (h : topicPublishInternal env blank (retained topic) propagate = some r) :
    RetainRun [⟨none, retained topic, r.broker.retains⟩] r.broker :=
  .publish (.init fun _ ↦ rfl) hfits rfl h

end Sample

/-- The statement after one retained message. -/
theorem retained_store_law_stored : ∃ (hist : List RetainEvent) (b : Broker Config.posix ℕ),
    RetainRun hist b ∧ b.retains.Has [0x74] ([0x78], 0) := by
  obtain ⟨r, hr⟩ := Option.isSome_iff_exists.mp Sample.retained_isSome.1
  have hrun := Sample.retained_run (by unfold MqttPublish.Fits; decide) hr
  obtain ⟨-, hhas, hstored, -⟩ := retained_store_law hrun
  refine ⟨_, _, hrun, (hhas _ _).mpr ⟨[], _, [], rfl, ?_, rfl, rfl, by simp⟩⟩
  have hretain : (Sample.retained [0x74]).retain ≠ 0 := by decide
  have hne : (Sample.retained [0x74]).payload ≠ [] := by decide
  have hroom : ¬ RetainStore.Full none := by decide
  exact (hstored _ List.mem_cons_self hretain hne).mpr fun hfull ↦ hroom hfull.2

/-- A message that is retained for the topic `+`, as P2P can deliver one, is not sent
to a subscription that matches it. -/
theorem retained_wildcard_unsent : ∃ (hist : List RetainEvent) (b : Broker Config.posix ℕ),
    RetainRun hist b ∧ b.retains.Has [0x2B] ([0x78], 0) ∧ topicMatch [0x2B] [0x2B] = true ∧
      (topicDeliverRetained b.retains (clientAllocated 5) [0x2B] 0 0 true).2 = [] := by
  obtain ⟨r, hr⟩ := Option.isSome_iff_exists.mp Sample.retained_isSome.2
  have hrun := Sample.retained_run (by unfold MqttPublish.Fits; decide) hr
  have hstore : (topicPublishInternal Sample.env Sample.blank (Sample.retained [0x2B]) false).map
      (fun r ↦ (r.broker.retains.entry ⟨0, by decide⟩,
        (topicDeliverRetained r.broker.retains (clientAllocated 5) [0x2B] 0 0 true).2)) =
      some (⟨[0x2B], [0x78], 0, true⟩, []) := by decide
  rw [hr, Option.map_some, Option.some.injEq, Prod.mk.injEq] at hstore
  exact ⟨_, _, hrun, ⟨_, hstore.1⟩, by decide, hstore.2⟩

end MqttBroker
