import MqttBroker.Client.Sessions
import MqttBroker.Topic.MaxQos

/-!
# The lists of the subscription table

Each slot in use is in the list where the fan-out looks for its filter, once, and nothing
else is in any list.
-/

namespace MqttBroker

open IntrusiveList

variable {cfg : Config} {κ : Type}

namespace TopicTable

/-- The lists that the walks find, and how often a slot is in each. -/
structure Lists (t : TopicTable cfg κ) (exact : Slot cfg → List (Slot cfg))
    (wild : List (Slot cfg)) : Prop where
  exact_walk : ∀ b, walk t.exactNext cfg.topicMaxSubs (t.exactHeads b) = some (exact b)
  exact_count : ∀ b i, (exact b).count i =
    if (t.subs i).inUse = true ∧ hasWildcard (t.subs i).filter = false ∧
      topicBucket cfg (t.subs i).filter = b then 1 else 0
  exact_acyclic : ∀ b, ∀ i ∈ exact b, ¬ Behind t.exactNext i i
  wild_walk : walk t.wildcardNext cfg.topicMaxSubs t.wildcardHead = some wild
  wild_count : ∀ i, wild.count i =
    if (t.subs i).inUse = true ∧ hasWildcard (t.subs i).filter = true then 1 else 0
  wild_acyclic : ∀ i ∈ wild, ¬ Behind t.wildcardNext i i

/-- `is_exact` of a slot in use says whether its filter is without wildcards. -/
def MarksRight (t : TopicTable cfg κ) : Prop :=
  ∀ i, (t.subs i).inUse = true → (t.subs i).isExact = filterIsExactLocal (t.subs i).filter

/-! ## What the operations keep -/

theorem removeSlot_isExact {t t' : TopicTable cfg κ} {i : Slot cfg}
    (h : t.removeSlot i = some t') (j : Slot cfg) : (t'.subs j).isExact = (t.subs j).isExact := by
  obtain ⟨_, _, hentry⟩ := removeSlot_entry h j
  rw [hentry]

theorem fillSlot_isExact (t : TopicTable cfg κ) (i : Slot cfg) (c : κ) (filter : CStr)
    (qos : UInt8) : ((t.fillSlot i c filter qos).subs i).isExact = filterIsExactLocal filter ∧
      ∀ j, j ≠ i → ((t.fillSlot i c filter qos).subs j).isExact = (t.subs j).isExact := by
  unfold TopicTable.fillSlot
  dsimp only
  split_ifs
  · exact ⟨by simp [exactListInsert], fun j hj ↦ by simp [exactListInsert, hj]⟩
  · exact ⟨by simp [wildcardListInsert], fun j hj ↦ by simp [wildcardListInsert, hj]⟩

variable {t t' : TopicTable cfg κ}

theorem MarksRight.removeSlot (h : t.MarksRight) {i : Slot cfg} (hrun : t.removeSlot i = some t') :
    t'.MarksRight := by
  intro j hj
  obtain ⟨-, hfilter, -, huse⟩ := removeSlot_frame hrun j
  rw [huse] at hj
  rw [removeSlot_isExact hrun, hfilter]
  exact h j (Bool.and_eq_true_iff.mp hj).1

/-- A filter that is stored whole is marked for what is stored. -/
theorem MarksRight.fillSlot (h : t.MarksRight) (i : Slot cfg) (c : κ) {filter : CStr}
    (hlen : filter.length < MQTT_TOPIC_MAX) (qos : UInt8) :
    (t.fillSlot i c filter qos).MarksRight := by
  obtain ⟨⟨-, hfilter, -, -⟩, hothers⟩ := fillSlot_frame t i c filter qos
  obtain ⟨hexact, hexacts⟩ := fillSlot_isExact t i c filter qos
  intro j hj
  by_cases hji : j = i
  · subst hji
    rw [hexact, hfilter, List.take_of_length_le (Nat.le_sub_one_of_lt hlen)]
  · obtain ⟨huse, -, hfilter, -⟩ := hothers j hji
    rw [huse] at hj
    rw [hexacts j hji, hfilter]
    exact h j hj

variable [DecidableEq κ]

theorem MarksRight.apply (h : t.MarksRight) {op : TopicOp κ} (hop : op.StoredWhole)
    (hrun : t.apply op = some t') : t'.MarksRight := by
  cases op with
  | subscribe c filter qos =>
      cases hrun
      unfold topicSubscribe
      cases t.findSub c filter with
      | some i =>
          intro j hj
          by_cases hji : j = i
          · subst hji
            simpa using h j (by simpa using hj)
          · simpa [hji] using h j (by simpa [hji] using hj)
      | none =>
          cases t.findFree with
          | some i => exact h.fillSlot i c hop qos
          | none => exact h
  | unsubscribe c filter =>
      obtain ⟨r, hr, rfl⟩ := Option.map_eq_some_iff.mp hrun
      unfold topicUnsubscribe at hr
      split at hr
      · cases hr
        exact h
      · obtain ⟨t₁, hremove, hr⟩ := Option.bind_eq_some_iff.mp hr
        cases hr
        exact h.removeSlot hremove
  | unsubscribeAll c =>
      obtain ⟨r, hr, rfl⟩ := Option.map_eq_some_iff.mp hrun
      exact topicUnsubscribeAll_keeps (fun ht _ hremove ↦ ht.removeSlot hremove) h hr

theorem Distinct.apply (h : t.Distinct) {op : TopicOp κ} (hop : op.StoredWhole)
    (hrun : t.apply op = some t') : t'.Distinct := by
  cases op with
  | subscribe c filter qos =>
      cases hrun
      exact h.topicSubscribe hop
  | unsubscribe c filter =>
      obtain ⟨r, hr, rfl⟩ := Option.map_eq_some_iff.mp hrun
      exact h.topicUnsubscribe hr
  | unsubscribeAll c =>
      obtain ⟨r, hr, rfl⟩ := Option.map_eq_some_iff.mp hrun
      exact h.of_sub fun i x hx ↦ (removed_topicUnsubscribeAll hr).sub hx

/-! ## What the walks find -/

omit [DecidableEq κ] in
theorem count_eq_of_mem_iff {l : List (Slot cfg)} (hl : l.Nodup) {i : Slot cfg} {p : Prop}
    [Decidable p] (h : i ∈ l ↔ p) : l.count i = if p then 1 else 0 := by
  split_ifs with hp
  · exact List.count_eq_one_of_mem hl (h.mpr hp)
  · exact List.count_eq_zero_of_not_mem (mt h.mp hp)

omit [DecidableEq κ] in
theorem Linked.lists {exact : Slot cfg → List (Slot cfg)} {wild : List (Slot cfg)}
    (h : t.Linked exact wild) (hmarks : t.MarksRight) : t.Lists exact wild where
  exact_walk b := (h.exact_chain b).walk_eq (nodup_length_le (h.exact_nodup b))
  exact_count b i := by
    refine count_eq_of_mem_iff (h.exact_nodup b) ((h.mem_exact b i).trans ?_)
    refine and_congr_right fun huse ↦ and_congr_left fun _ ↦ ?_
    rw [hmarks i huse, filterIsExactLocal, Bool.not_eq_true']
  exact_acyclic b i hi := (h.exact_chain b).not_behind_self (h.exact_nodup b) hi
  wild_walk := h.wild_chain.walk_eq (nodup_length_le h.wild_nodup)
  wild_count i := by
    refine count_eq_of_mem_iff h.wild_nodup ((h.mem_wild i).trans ?_)
    refine and_congr_right fun huse ↦ ?_
    rw [hmarks i huse, filterIsExactLocal, Bool.not_eq_false']
  wild_acyclic i hi := h.wild_chain.not_behind_self h.wild_nodup hi

/-- What holds of every table. -/
structure Kept (t : TopicTable cfg κ) : Prop where
  linked : t.IsLinked
  marks : t.MarksRight
  distinct : t.Distinct

theorem Kept.foldlM (h : t.Kept) {ops : List (TopicOp κ)} (hops : ∀ op ∈ ops, op.StoredWhole) :
    ∃ t', ops.foldlM TopicTable.apply t = some t' ∧ t'.Kept := by
  induction ops generalizing t with
  | nil => exact ⟨t, rfl, h⟩
  | cons op ops ih =>
      obtain ⟨t₁, hrun, hlinked⟩ := h.linked.apply op
      have hop := hops op List.mem_cons_self
      have hkept : t₁.Kept := ⟨hlinked, h.marks.apply hop hrun, h.distinct.apply hop hrun⟩
      obtain ⟨t', hrest, ht'⟩ := ih hkept fun op' hop' ↦ hops op' (List.mem_cons_of_mem op hop')
      exact ⟨t', by rw [List.foldlM_cons, hrun]; exact hrest, ht'⟩

omit [DecidableEq κ] in
theorem kept_init [Inhabited κ] : (topicInit cfg κ).Kept where
  linked := isLinked_init
  marks _ hi := by cases hi
  distinct := ⟨fun _ _ hx ↦ (nomatch hx), fun _ _ _ _ hx ↦ (nomatch hx)⟩

end TopicTable

section

variable [DecidableEq κ] [Inhabited κ]

/-- In every table since `topic_init` the walks end and find each slot in use once, in the list
of its filter, and no client has a filter twice. -/
theorem lists_right (ops : List (TopicOp κ)) (hops : ∀ op ∈ ops, op.StoredWhole) :
    ∃ t exact wild, topicRun cfg ops = some t ∧ t.Lists exact wild ∧
      ∀ i j, (t.subs i).inUse = true → (t.subs j).inUse = true →
        (t.subs i).client = (t.subs j).client → (t.subs i).filter = (t.subs j).filter → i = j := by
  have hinit : (topicInit cfg κ).Kept := TopicTable.kept_init
  obtain ⟨t, hrun, ⟨exact, wild, hlinked⟩, hmarks, hdistinct⟩ := hinit.foldlM hops
  refine ⟨t, exact, wild, hrun, hlinked.lists hmarks, fun i j hi hj hclient hfilter ↦ ?_⟩
  exact hdistinct.once i j ⟨_, _, _⟩ ⟨_, _, _⟩
    (TopicTable.sub_eq_some_iff.mpr ⟨hi, rfl, rfl, rfl⟩)
    (TopicTable.sub_eq_some_iff.mpr ⟨hj, rfl, rfl, rfl⟩) hclient hfilter

end

namespace ListsSample

/-- A slot of a wildcard filter is freed and used again. -/
def ops : List (TopicOp ℕ) :=
  [.subscribe 0 [0x61, 0x2F, 0x2B] 0, .unsubscribeAll 0, .subscribe 1 [0x62, 0x2F, 0x23] 0]

end ListsSample

theorem lists_right_reused : ∃ t exact wild, topicRun Config.posix ListsSample.ops = some t ∧
    t.Lists exact wild ∧ ∀ i j, (t.subs i).inUse = true → (t.subs j).inUse = true →
      (t.subs i).client = (t.subs j).client → (t.subs i).filter = (t.subs j).filter → i = j :=
  lists_right ListsSample.ops
    (by simp [ListsSample.ops, TopicOp.StoredWhole, MQTT_TOPIC_MAX])

end MqttBroker
