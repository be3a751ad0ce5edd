import MqttBroker.Topic.Table

/-!
# The subscriptions in the table

The table without its lists: what each slot in use subscribes to, and what the
three operations make of it.
-/

namespace MqttBroker

variable {κ : Type} {cfg : Config}

structure Subscription (κ : Type) where
  client : κ
  filter : CStr
  qos : UInt8
  deriving DecidableEq

namespace TopicTable

/-- What slot `i` holds. -/
def sub (t : TopicTable cfg κ) (i : Slot cfg) : Option (Subscription κ) :=
  if (t.subs i).inUse then some ⟨(t.subs i).client, (t.subs i).filter, (t.subs i).qos⟩ else none

theorem sub_eq_some_iff {t : TopicTable cfg κ} {i : Slot cfg} {x : Subscription κ} :
    t.sub i = some x ↔ (t.subs i).inUse = true ∧ (t.subs i).client = x.client ∧
      (t.subs i).filter = x.filter ∧ (t.subs i).qos = x.qos := by
  obtain ⟨c, f, q⟩ := x
  unfold sub
  split_ifs with h <;> simp [h]

theorem sub_eq_none_iff {t : TopicTable cfg κ} {i : Slot cfg} :
    t.sub i = none ↔ (t.subs i).inUse = false := by
  unfold sub
  split_ifs with h <;> simp [h]

theorem sub_congr {t t' : TopicTable cfg κ} {i : Slot cfg}
    (hclient : (t'.subs i).client = (t.subs i).client)
    (hfilter : (t'.subs i).filter = (t.subs i).filter) (hqos : (t'.subs i).qos = (t.subs i).qos)
    (huse : (t'.subs i).inUse = (t.subs i).inUse) : t'.sub i = t.sub i := by
  unfold sub
  rw [hclient, hfilter, hqos, huse]

theorem sub_init [Inhabited κ] (i : Slot cfg) : (topicInit cfg κ).sub i = none := rfl

theorem sub_removeSlot {t t' : TopicTable cfg κ} {i : Slot cfg} (h : t.removeSlot i = some t') :
    t'.sub = Function.update t.sub i none := by
  funext j
  obtain ⟨hclient, hfilter, hqos, huse⟩ := removeSlot_frame h j
  by_cases hj : j = i
  · subst hj
    rw [Function.update_self, sub_eq_none_iff, huse]
    simp
  · rw [Function.update_of_ne hj]
    refine sub_congr hclient hfilter hqos ?_
    rw [huse, decide_eq_true hj, Bool.and_true]

theorem sub_fillSlot (t : TopicTable cfg κ) (i : Slot cfg) (c : κ) (filter : CStr) (qos : UInt8) :
    (t.fillSlot i c filter qos).sub =
      Function.update t.sub i (some ⟨c, filter.take (MQTT_TOPIC_MAX - 1), qos⟩) := by
  obtain ⟨⟨hclient, hfilter, hqos, huse⟩, hothers⟩ := fillSlot_frame t i c filter qos
  funext j
  by_cases hj : j = i
  · subst hj
    rw [Function.update_self]
    exact sub_eq_some_iff.mpr ⟨huse, hclient, hfilter, hqos⟩
  · rw [Function.update_of_ne hj]
    obtain ⟨huse, hclient, hfilter, hqos⟩ := hothers j hj
    exact sub_congr hclient hfilter hqos huse

variable [DecidableEq κ]

theorem findSub_some {t : TopicTable cfg κ} {c : κ} {filter : CStr} {i : Slot cfg}
    (h : t.findSub c filter = some i) : t.sub i = some ⟨c, filter, (t.subs i).qos⟩ := by
  have hp := List.find?_some h
  simp only [Bool.and_eq_true, decide_eq_true_eq] at hp
  exact sub_eq_some_iff.mpr ⟨hp.1.1, hp.2, hp.1.2, rfl⟩

theorem findSub_none {t : TopicTable cfg κ} {c : κ} {filter : CStr}
    (h : t.findSub c filter = none) (i : Slot cfg) (qos : UInt8) :
    t.sub i ≠ some ⟨c, filter, qos⟩ := by
  intro hi
  obtain ⟨huse, hclient, hfilter, -⟩ := sub_eq_some_iff.mp hi
  have hmem : i ∈ (if cfg.p2pDynamic then (List.finRange cfg.topicMaxSubs).reverse
      else List.finRange cfg.topicMaxSubs) := by
    split_ifs <;> simp
  have hnot := List.find?_eq_none.mp h i hmem
  simp [huse, hclient, hfilter] at hnot

omit [DecidableEq κ] in
theorem findFree_none {t : TopicTable cfg κ} (h : t.findFree = none) (i : Slot cfg) :
    t.sub i ≠ none := by
  have hi := List.find?_eq_none.mp h i (List.mem_finRange i)
  rw [Ne, sub_eq_none_iff]
  simpa using hi

/-- What `topic_subscribe` does to the slots. -/
theorem topicSubscribe_cases (t : TopicTable cfg κ) (c : κ) (filter : CStr) (qos : UInt8) :
    (∃ i, t.findSub c filter = some i ∧ (t.topicSubscribe c filter qos).1.sub =
      Function.update t.sub i (some ⟨c, filter, qos⟩)) ∨
    t.findSub c filter = none ∧
      ((∃ i, t.findFree = some i ∧ (t.topicSubscribe c filter qos).1.sub =
        Function.update t.sub i (some ⟨c, filter.take (MQTT_TOPIC_MAX - 1), qos⟩)) ∨
      t.findFree = none ∧ (t.topicSubscribe c filter qos).1 = t) := by
  unfold topicSubscribe
  cases hfind : t.findSub c filter with
  | some i =>
      refine Or.inl ⟨i, rfl, ?_⟩
      funext j
      by_cases hj : j = i
      · subst hj
        obtain ⟨huse, hclient, hfilter, -⟩ := sub_eq_some_iff.mp (findSub_some hfind)
        rw [Function.update_self]
        exact sub_eq_some_iff.mpr (by simp [huse, hclient, hfilter])
      · rw [Function.update_of_ne hj]
        exact sub_congr (by simp [hj]) (by simp [hj]) (by simp [hj]) (by simp [hj])
  | none =>
      refine Or.inr ⟨rfl, ?_⟩
      cases hfree : t.findFree with
      | some i => exact Or.inl ⟨i, rfl, sub_fillSlot t i c filter qos⟩
      | none => exact Or.inr ⟨rfl, rfl⟩

/-- What `topic_unsubscribe` does to the slots. -/
theorem topicUnsubscribe_cases {t : TopicTable cfg κ} {c : κ} {filter : CStr}
    {r : TopicTable cfg κ × List Notify} (h : t.topicUnsubscribe c filter = some r) :
    (∃ i, t.findSub c filter = some i ∧ r.1.sub = Function.update t.sub i none) ∨
      t.findSub c filter = none ∧ r = (t, []) := by
  unfold topicUnsubscribe at h
  cases hfind : t.findSub c filter with
  | none =>
      rw [hfind] at h
      exact Or.inr ⟨rfl, (Option.some.inj h).symm⟩
  | some i =>
      rw [hfind] at h
      obtain ⟨t', hremove, h⟩ := Option.bind_eq_some_iff.mp h
      cases h
      exact Or.inl ⟨i, rfl, sub_removeSlot hremove⟩

omit [DecidableEq κ] in
/-- Removing the subscriptions of a client adds nothing. -/
theorem Removed.sub {t t' : TopicTable cfg κ} {c : κ} (h : t.Removed c t') {i : Slot cfg}
    {x : Subscription κ} (hx : t'.sub i = some x) : t.sub i = some x := by
  obtain ⟨huse, hclient, hfilter, hqos⟩ := sub_eq_some_iff.mp hx
  exact sub_eq_some_iff.mpr
    ⟨h.inUse huse, h.client ▸ hclient, h.filter ▸ hfilter, h.qos ▸ hqos⟩

/-- Every subscription in the table satisfies `S`. -/
def SubsAll (S : Subscription κ → Prop) (t : TopicTable cfg κ) : Prop :=
  ∀ i x, t.sub i = some x → S x

section

variable {S : Subscription κ → Prop} {t : TopicTable cfg κ}

omit [DecidableEq κ] in
theorem SubsAll.update {t' : TopicTable cfg κ} (h : t.SubsAll S) {i : Slot cfg}
    {y : Option (Subscription κ)} (heq : t'.sub = Function.update t.sub i y)
    (hy : ∀ x, y = some x → S x) : t'.SubsAll S := by
  intro j x hx
  rw [heq] at hx
  by_cases hj : j = i
  · subst hj
    rw [Function.update_self] at hx
    exact hy x hx
  · rw [Function.update_of_ne hj] at hx
    exact h j x hx

theorem SubsAll.topicSubscribe (h : t.SubsAll S) {c : κ} {filter : CStr} {qos : UInt8}
    (hnew : ∀ n, S ⟨c, filter.take n, qos⟩) : (t.topicSubscribe c filter qos).1.SubsAll S := by
  rcases t.topicSubscribe_cases c filter qos with ⟨i, -, heq⟩ | ⟨-, ⟨i, -, heq⟩ | ⟨-, heq⟩⟩
  · refine h.update heq ?_
    rintro _ ⟨rfl⟩
    simpa using hnew filter.length
  · refine h.update heq ?_
    rintro _ ⟨rfl⟩
    exact hnew _
  · rwa [heq]

theorem SubsAll.topicUnsubscribe (h : t.SubsAll S) {c : κ} {filter : CStr}
    {r : TopicTable cfg κ × List Notify} (hrun : t.topicUnsubscribe c filter = some r) :
    r.1.SubsAll S := by
  rcases topicUnsubscribe_cases hrun with ⟨i, -, heq⟩ | ⟨-, rfl⟩
  · refine h.update heq ?_
    rintro _ ⟨⟩
  · exact h

omit [DecidableEq κ] in
theorem SubsAll.removed (h : t.SubsAll S) {t' : TopicTable cfg κ} {c : κ}
    (hrun : t.Removed c t') : t'.SubsAll S := fun i x hx ↦ h i x (hrun.sub hx)

end

end TopicTable

end MqttBroker
