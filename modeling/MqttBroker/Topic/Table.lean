import MqttBroker.Topic.Match
import MqttBroker.Lib.IntrusiveList

/-!
# The subscription table

`subs[]` of `topic.c` with its two kinds of intrusive lists: one list of exact
filters for each hash bucket and one list of wildcard filters.  `Linked` says
what the lists hold in every table that the operations can produce.
-/

namespace MqttBroker

open IntrusiveList

variable {κ : Type} {cfg : Config}

abbrev Slot (cfg : Config) := Fin cfg.topicMaxSubs

/-- `sub_entry_t`; a link below zero is `none`. -/
structure SubEntry (cfg : Config) (κ : Type) where
  client : κ
  filter : CStr
  qos : UInt8
  inUse : Bool
  exactNext : Option (Slot cfg)
  wildcardNext : Option (Slot cfg)
  isExact : Bool

/-- The static variables `subs`, `exact_heads` and `wildcard_head`. -/
structure TopicTable (cfg : Config) (κ : Type) where
  subs : Slot cfg → SubEntry cfg κ
  exactHeads : Slot cfg → Option (Slot cfg)
  wildcardHead : Option (Slot cfg)

/-- The calls `topic.c` makes to `p2p_local_subscribe` and `p2p_local_unsubscribe`. -/
inductive Notify where
  | localSubscribe (filter : CStr) (qos : UInt8)
  | localUnsubscribe (filter : CStr)
  deriving DecidableEq, Repr

/-! ## The code -/

/-- `topic_hash`: 32-bit FNV-1a. -/
def topicHash (s : CStr) : UInt32 :=
  s.foldl (fun h c ↦ (h ^^^ c.toUInt32) * 16777619) 2166136261

/-- `topic_hash(s) % TOPIC_MAX_SUBS` -/
def topicBucket (cfg : Config) (s : CStr) : Slot cfg :=
  ⟨(topicHash s).toNat % cfg.topicMaxSubs, Nat.mod_lt _ cfg.topicMaxSubs_pos⟩

def filterIsExactLocal (filter : CStr) : Bool := !hasWildcard filter

/-- `topic_init`: `memset` leaves every link of a slot at index 0. -/
def topicInit (cfg : Config) (κ : Type) [Inhabited κ] : TopicTable cfg κ where
  subs _ := ⟨default, [], 0, false, some ⟨0, cfg.topicMaxSubs_pos⟩,
    some ⟨0, cfg.topicMaxSubs_pos⟩, false⟩
  exactHeads _ := none
  wildcardHead := none

namespace TopicTable

def exactNext (t : TopicTable cfg κ) (i : Slot cfg) : Option (Slot cfg) := (t.subs i).exactNext

def wildcardNext (t : TopicTable cfg κ) (i : Slot cfg) : Option (Slot cfg) :=
  (t.subs i).wildcardNext

def exactListInsert (t : TopicTable cfg κ) (slot : Slot cfg) : TopicTable cfg κ :=
  let bucket := topicBucket cfg (t.subs slot).filter
  { t with
    subs := Function.update t.subs slot
      { t.subs slot with exactNext := t.exactHeads bucket }
    exactHeads := Function.update t.exactHeads bucket (some slot) }

def wildcardListInsert (t : TopicTable cfg κ) (slot : Slot cfg) : TopicTable cfg κ :=
  { t with
    subs := Function.update t.subs slot { t.subs slot with wildcardNext := t.wildcardHead }
    wildcardHead := some slot }

def exactListRemove (t : TopicTable cfg κ) (slot : Slot cfg) : Option (TopicTable cfg κ) :=
  let bucket := topicBucket cfg (t.subs slot).filter
  (unlink t.exactNext (t.exactHeads bucket) slot cfg.topicMaxSubs).map fun r ↦
    { t with
      subs := fun i ↦ { t.subs i with exactNext := r.2 i }
      exactHeads := Function.update t.exactHeads bucket r.1 }

def wildcardListRemove (t : TopicTable cfg κ) (slot : Slot cfg) : Option (TopicTable cfg κ) :=
  (unlink t.wildcardNext t.wildcardHead slot cfg.topicMaxSubs).map fun r ↦
    { t with
      subs := fun i ↦ { t.subs i with wildcardNext := r.2 i }
      wildcardHead := r.1 }

/-- Take `slot` out of its list and free it, as every removal does. -/
def removeSlot (t : TopicTable cfg κ) (slot : Slot cfg) : Option (TopicTable cfg κ) := do
  let t ← if (t.subs slot).isExact then t.exactListRemove slot else t.wildcardListRemove slot
  some { t with subs := Function.update t.subs slot { t.subs slot with inUse := false } }

/-- `filter_stats_locked`: how many slots hold the filter and their largest QoS. -/
def filterStats (t : TopicTable cfg κ) (filter : CStr) : ℕ × UInt8 :=
  (List.finRange cfg.topicMaxSubs).foldl (fun r i ↦
    if (t.subs i).inUse ∧ (t.subs i).filter = filter then
      (r.1 + 1, if r.2 < (t.subs i).qos then (t.subs i).qos else r.2)
    else r) (0, 0)

def findFree (t : TopicTable cfg κ) : Option (Slot cfg) :=
  (List.finRange cfg.topicMaxSubs).find? fun i ↦ !(t.subs i).inUse

/-- Fill a free slot and link it. -/
def fillSlot (t : TopicTable cfg κ) (i : Slot cfg) (c : κ) (filter : CStr) (qos : UInt8) :
    TopicTable cfg κ :=
  let isExact := filterIsExactLocal filter
  let t := { t with
    subs := Function.update t.subs i
      { t.subs i with
        client := c
        filter := filter.take (MQTT_TOPIC_MAX - 1)
        qos := qos
        inUse := true
        isExact := isExact } }
  if isExact then t.exactListInsert i else t.wildcardListInsert i

variable [DecidableEq κ]

/-- The slot of client `c` with this filter: the scan keeps the last one with
P2P, where it counts on, and stops at the first one without. -/
def findSub (t : TopicTable cfg κ) (c : κ) (filter : CStr) : Option (Slot cfg) :=
  let slots := List.finRange cfg.topicMaxSubs
  (if cfg.p2pDynamic then slots.reverse else slots).find? fun i ↦
    (t.subs i).inUse && (t.subs i).filter = filter && (t.subs i).client = c

/-- `topic_subscribe`: the table, the return code and the P2P notifications. -/
def topicSubscribe (t : TopicTable cfg κ) (c : κ) (filter : CStr) (qos : UInt8) :
    TopicTable cfg κ × ℤ × List Notify :=
  let old := t.filterStats filter
  match t.findSub c filter with
  | some i =>
      let t' := { t with subs := Function.update t.subs i { t.subs i with qos := qos } }
      let newMaxQos :=
        if old.2 ≤ qos then qos
        else if (t.subs i).qos < old.2 then old.2
        else (t'.filterStats filter).2
      (t', 0, if cfg.p2pDynamic ∧ newMaxQos ≠ old.2 then [.localSubscribe filter newMaxQos]
        else [])
  | none =>
      match t.findFree with
      | some i =>
          let newMaxQos := if old.2 < qos then qos else old.2
          (t.fillSlot i c filter qos, 0,
            if cfg.p2pDynamic ∧ (old.1 = 0 ∨ newMaxQos ≠ old.2) then
              [.localSubscribe filter newMaxQos]
            else [])
      | none => (t, -1, [])

/-- `topic_unsubscribe`. -/
def topicUnsubscribe (t : TopicTable cfg κ) (c : κ) (filter : CStr) :
    Option (TopicTable cfg κ × List Notify) :=
  match t.findSub c filter with
  | none => some (t, [])
  | some i => do
      let old := t.filterStats filter
      let t' ← t.removeSlot i
      let notify :=
        if old.1 = 1 then [Notify.localUnsubscribe filter]
        else if (t.subs i).qos < old.2 then []
        else
          let newMaxQos := (t'.filterStats filter).2
          if newMaxQos ≠ old.2 then [Notify.localSubscribe filter newMaxQos] else []
      some (t', if cfg.p2pDynamic then notify else [])

/-- The rounds of `topic_unsubscribe_all` with P2P: each one frees the first
slot of `c`, unlocks and notifies. -/
def unsubscribeRounds (c : κ) :
    ℕ → TopicTable cfg κ → Option (TopicTable cfg κ × List Notify)
  | 0, _ => none
  | k + 1, t =>
      match (List.finRange cfg.topicMaxSubs).find? fun i ↦
          (t.subs i).inUse && (t.subs i).client = c with
      | none => some (t, [])
      | some i => do
          let removed := (t.subs i).filter
          let old := t.filterStats removed
          let t' ← t.removeSlot i
          let new := t'.filterStats removed
          let notify :=
            if 0 < old.1 ∧ new.1 = 0 then [Notify.localUnsubscribe removed]
            else if 0 < new.1 ∧ new.2 ≠ old.2 then [Notify.localSubscribe removed new.2]
            else []
          let (t'', rest) ← unsubscribeRounds c k t'
          some (t'', notify ++ rest)

/-- `topic_unsubscribe_all`. -/
def topicUnsubscribeAll (t : TopicTable cfg κ) (c : κ) :
    Option (TopicTable cfg κ × List Notify) :=
  if cfg.p2pDynamic then unsubscribeRounds c (cfg.topicMaxSubs + 1) t
  else do
    let t ← (List.finRange cfg.topicMaxSubs).foldlM (fun t i ↦
      if (t.subs i).inUse ∧ (t.subs i).client = c then t.removeSlot i else some t) t
    some (t, [])

/-- `topic_get_client_subs`: the first `max` subscriptions of client `c`. -/
def topicGetClientSubs (t : TopicTable cfg κ) (c : κ) (max : ℕ) : List (CStr × UInt8) :=
  (((List.finRange cfg.topicMaxSubs).filter fun i ↦
    (t.subs i).inUse && (t.subs i).client = c).take max).map fun i ↦
      ((t.subs i).filter, (t.subs i).qos)

/-- `topic_filter_subscriber_count`. -/
def filterSubscriberCount (t : TopicTable cfg κ) (filter : CStr) : ℕ :=
  if filter = [] then 0
  else (List.finRange cfg.topicMaxSubs).countP fun i ↦
    (t.subs i).inUse && (t.subs i).filter = filter

end TopicTable

/-- The three calls that change the table. -/
inductive TopicOp (κ : Type) where
  | subscribe (c : κ) (filter : CStr) (qos : UInt8)
  | unsubscribe (c : κ) (filter : CStr)
  | unsubscribeAll (c : κ)

section

variable [DecidableEq κ]

def TopicTable.apply (t : TopicTable cfg κ) : TopicOp κ → Option (TopicTable cfg κ)
  | .subscribe c filter qos => some (t.topicSubscribe c filter qos).1
  | .unsubscribe c filter => (t.topicUnsubscribe c filter).map Prod.fst
  | .unsubscribeAll c => (t.topicUnsubscribeAll c).map Prod.fst

/-- The table after a sequence of calls since `topic_init`. -/
def topicRun [Inhabited κ] (cfg : Config) (ops : List (TopicOp κ)) :
    Option (TopicTable cfg κ) :=
  ops.foldlM TopicTable.apply (topicInit cfg κ)

end

/-! ## What the lists hold -/

namespace TopicTable

/-- `exact b` and `wild` are the lists of the table: an in-use slot is in the
list that its kind and its filter's hash name, and in no other. -/
structure Linked (t : TopicTable cfg κ) (exact : Slot cfg → List (Slot cfg))
    (wild : List (Slot cfg)) : Prop where
  exact_chain : ∀ b, Chain t.exactNext (t.exactHeads b) (exact b)
  exact_nodup : ∀ b, (exact b).Nodup
  mem_exact : ∀ b i, i ∈ exact b ↔ (t.subs i).inUse = true ∧ (t.subs i).isExact = true ∧
    topicBucket cfg (t.subs i).filter = b
  wild_chain : Chain t.wildcardNext t.wildcardHead wild
  wild_nodup : wild.Nodup
  mem_wild : ∀ i, i ∈ wild ↔ (t.subs i).inUse = true ∧ (t.subs i).isExact = false
  exact_plain : ∀ i, (t.subs i).inUse = true → (t.subs i).isExact = true →
    hasWildcard (t.subs i).filter = false

def IsLinked (t : TopicTable cfg κ) : Prop := ∃ exact wild, t.Linked exact wild

theorem nodup_length_le {l : List (Slot cfg)} (h : l.Nodup) : l.length ≤ cfg.topicMaxSubs := by
  simpa using h.length_le_card

theorem isLinked_init [Inhabited κ] : (topicInit cfg κ).IsLinked := by
  refine ⟨fun _ ↦ [], [], ?_⟩
  constructor <;> intros <;> simp_all [topicInit]

/-- A change of clients and QoS values alone keeps the lists. -/
theorem Linked.congr {t t' : TopicTable cfg κ} {exact : Slot cfg → List (Slot cfg)}
    {wild : List (Slot cfg)} (h : t.Linked exact wild)
    (hh : t'.exactHeads = t.exactHeads) (hw : t'.wildcardHead = t.wildcardHead)
    (hs : ∀ i, (t'.subs i).inUse = (t.subs i).inUse ∧ (t'.subs i).filter = (t.subs i).filter ∧
      (t'.subs i).isExact = (t.subs i).isExact ∧ (t'.subs i).exactNext = (t.subs i).exactNext ∧
      (t'.subs i).wildcardNext = (t.subs i).wildcardNext) : t'.Linked exact wild where
  exact_chain b := by
    rw [hh]
    exact (h.exact_chain b).congr fun i _ ↦ (hs i).2.2.2.1
  exact_nodup := h.exact_nodup
  mem_exact b i := by rw [(hs i).1, (hs i).2.1, (hs i).2.2.1]; exact h.mem_exact b i
  wild_chain := by
    rw [hw]
    exact h.wild_chain.congr fun i _ ↦ (hs i).2.2.2.2
  wild_nodup := h.wild_nodup
  mem_wild i := by rw [(hs i).1, (hs i).2.2.1]; exact h.mem_wild i
  exact_plain i := by rw [(hs i).1, (hs i).2.1, (hs i).2.2.1]; exact h.exact_plain i

theorem hasWildcard_take {s : CStr} (h : hasWildcard s = false) (k : ℕ) :
    hasWildcard (s.take k) = false := by
  rw [hasWildcard_eq_false_iff] at h ⊢
  exact ⟨fun hp ↦ h.1 (List.mem_of_mem_take hp), fun hp ↦ h.2 (List.mem_of_mem_take hp)⟩

/-- A free slot is in no list. -/
theorem Linked.not_mem_of_free {t : TopicTable cfg κ} {exact : Slot cfg → List (Slot cfg)}
    {wild : List (Slot cfg)} (h : t.Linked exact wild) {i : Slot cfg}
    (hfree : (t.subs i).inUse = false) : (∀ b, i ∉ exact b) ∧ i ∉ wild := by
  refine ⟨fun b hi ↦ ?_, fun hi ↦ ?_⟩
  · simp [(h.mem_exact b i).mp hi] at hfree
  · simp [(h.mem_wild i).mp hi] at hfree

/-- An exact filter goes to the front of the list of its bucket. -/
theorem Linked.fillExact {t : TopicTable cfg κ} {exact : Slot cfg → List (Slot cfg)}
    {wild : List (Slot cfg)} (h : t.Linked exact wild) {i : Slot cfg}
    (hfree : (t.subs i).inUse = false) (c : κ) {filter : CStr} (qos : UInt8)
    (hx : filterIsExactLocal filter = true) :
    (t.fillSlot i c filter qos).Linked
      (Function.update exact (topicBucket cfg (filter.take (MQTT_TOPIC_MAX - 1)))
        (i :: exact (topicBucket cfg (filter.take (MQTT_TOPIC_MAX - 1))))) wild := by
  obtain ⟨hexact, hwild⟩ := h.not_mem_of_free hfree
  have hplain : hasWildcard (filter.take (MQTT_TOPIC_MAX - 1)) = false :=
    hasWildcard_take (by simpa [filterIsExactLocal] using hx) _
  generalize hstored : filter.take (MQTT_TOPIC_MAX - 1) = stored at hplain ⊢
  generalize hbucket : topicBucket cfg stored = bucket
  have hsubs : (t.fillSlot i c filter qos).subs = Function.update t.subs i
      { t.subs i with
        client := c, filter := stored, qos := qos, inUse := true, isExact := true,
        exactNext := t.exactHeads bucket } := by
    simp [fillSlot, exactListInsert, hx, hbucket, hstored]
  have hheads : (t.fillSlot i c filter qos).exactHeads =
      Function.update t.exactHeads bucket (some i) := by
    simp [fillSlot, exactListInsert, hx, hbucket, hstored]
  have hwhead : (t.fillSlot i c filter qos).wildcardHead = t.wildcardHead := by
    simp [fillSlot, exactListInsert, hx]
  have hnext : (t.fillSlot i c filter qos).exactNext =
      Function.update t.exactNext i (t.exactHeads bucket) := by
    funext j
    by_cases hj : j = i <;> simp [exactNext, hsubs, hj]
  refine ⟨fun b ↦ ?_, fun b ↦ ?_, fun b j ↦ ?_, ?_, h.wild_nodup, fun j ↦ ?_, fun j ↦ ?_⟩
  · rw [hnext, hheads]
    by_cases hb : b = bucket
    · subst hb
      simpa using (h.exact_chain _).insert (hexact _)
    · simp only [hb, ne_eq, not_false_eq_true, Function.update_of_ne]
      exact (h.exact_chain b).congr fun j hj ↦
        Function.update_of_ne (ne_of_mem_of_not_mem hj (hexact b)) _ _
  · by_cases hb : b = bucket
    · subst hb
      simpa using ⟨hexact _, h.exact_nodup _⟩
    · simpa [hb] using h.exact_nodup b
  · rw [hsubs]
    by_cases hb : b = bucket
    · subst hb
      by_cases hj : j = i
      · subst hj
        simp [hbucket]
      · simp [hj, h.mem_exact]
    · by_cases hj : j = i
      · subst hj
        simp [hb, hexact b, hbucket, Ne.symm hb]
      · simp [hj, hb, h.mem_exact]
  · rw [hwhead]
    refine h.wild_chain.congr fun j hj ↦ ?_
    have hne : j ≠ i := ne_of_mem_of_not_mem hj hwild
    simp [wildcardNext, hsubs, hne]
  · rw [hsubs]
    by_cases hj : j = i
    · subst hj
      simp [hwild]
    · simp [hj, h.mem_wild]
  · rw [hsubs]
    by_cases hj : j = i
    · subst hj
      simp [hplain]
    · simpa [hj] using h.exact_plain j

/-- A filter with a wildcard goes to the front of the wildcard list. -/
theorem Linked.fillWildcard {t : TopicTable cfg κ} {exact : Slot cfg → List (Slot cfg)}
    {wild : List (Slot cfg)} (h : t.Linked exact wild) {i : Slot cfg}
    (hfree : (t.subs i).inUse = false) (c : κ) {filter : CStr} (qos : UInt8)
    (hx : filterIsExactLocal filter = false) :
    (t.fillSlot i c filter qos).Linked exact (i :: wild) := by
  obtain ⟨hexact, hwild⟩ := h.not_mem_of_free hfree
  have hsubs : (t.fillSlot i c filter qos).subs = Function.update t.subs i
      { t.subs i with
        client := c, filter := filter.take (MQTT_TOPIC_MAX - 1), qos := qos, inUse := true,
        isExact := false, wildcardNext := t.wildcardHead } := by
    simp [fillSlot, wildcardListInsert, hx]
  have hheads : (t.fillSlot i c filter qos).exactHeads = t.exactHeads := by
    simp [fillSlot, wildcardListInsert, hx]
  have hwhead : (t.fillSlot i c filter qos).wildcardHead = some i := by
    simp [fillSlot, wildcardListInsert, hx]
  have hnext : (t.fillSlot i c filter qos).wildcardNext =
      Function.update t.wildcardNext i t.wildcardHead := by
    funext j
    by_cases hj : j = i <;> simp [wildcardNext, hsubs, hj]
  refine ⟨fun b ↦ ?_, h.exact_nodup, fun b j ↦ ?_, ?_, ?_, fun j ↦ ?_, fun j ↦ ?_⟩
  · rw [hheads]
    refine (h.exact_chain b).congr fun j hj ↦ ?_
    have hne : j ≠ i := ne_of_mem_of_not_mem hj (hexact b)
    simp [exactNext, hsubs, hne]
  · rw [hsubs]
    by_cases hj : j = i
    · subst hj
      simp [hexact b]
    · simp [hj, h.mem_exact]
  · rw [hnext, hwhead]
    exact h.wild_chain.insert hwild
  · simpa using ⟨hwild, h.wild_nodup⟩
  · rw [hsubs]
    by_cases hj : j = i
    · subst hj
      simp
    · simp [hj, h.mem_wild]
  · rw [hsubs]
    by_cases hj : j = i
    · subst hj
      simp
    · simpa [hj] using h.exact_plain j

theorem IsLinked.fillSlot {t : TopicTable cfg κ} (h : t.IsLinked) {i : Slot cfg}
    (hfree : (t.subs i).inUse = false) (c : κ) (filter : CStr) (qos : UInt8) :
    (t.fillSlot i c filter qos).IsLinked := by
  obtain ⟨exact, wild, h⟩ := h
  cases hx : filterIsExactLocal filter with
  | true => exact ⟨_, _, h.fillExact hfree c qos hx⟩
  | false => exact ⟨_, _, h.fillWildcard hfree c qos hx⟩

/-- Freeing a slot always ends, keeps the lists, and changes no slot's client,
filter or QoS and no other slot's `in_use`. -/
theorem IsLinked.removeSlot {t : TopicTable cfg κ} (h : t.IsLinked) {i : Slot cfg}
    (hi : (t.subs i).inUse = true) :
    ∃ t', t.removeSlot i = some t' ∧ t'.IsLinked ∧
      ∀ j, (t'.subs j).client = (t.subs j).client ∧ (t'.subs j).filter = (t.subs j).filter ∧
        (t'.subs j).qos = (t.subs j).qos ∧
        (t'.subs j).inUse = ((t.subs j).inUse && decide (j ≠ i)) := by
  obtain ⟨exact, wild, h⟩ := h
  cases hx : (t.subs i).isExact with
  | true =>
      generalize hbucket : topicBucket cfg (t.subs i).filter = bucket
      obtain ⟨head', next', hrun, hchain, hframe⟩ :=
        (h.exact_chain bucket).unlink (h.exact_nodup bucket) i
          (nodup_length_le (h.exact_nodup bucket))
      let t₁ : TopicTable cfg κ :=
        { t with
          subs := fun j ↦ { t.subs j with exactNext := next' j }
          exactHeads := Function.update t.exactHeads bucket head' }
      let t₂ : TopicTable cfg κ :=
        { t₁ with subs := Function.update t₁.subs i { t₁.subs i with inUse := false } }
      have hrun' : t.removeSlot i = some t₂ := by
        simp [TopicTable.removeSlot, hx, exactListRemove, hbucket, hrun, t₁, t₂]
      have hframe₂ : ∀ j, (t₂.subs j).client = (t.subs j).client ∧
          (t₂.subs j).filter = (t.subs j).filter ∧ (t₂.subs j).qos = (t.subs j).qos ∧
          (t₂.subs j).isExact = (t.subs j).isExact ∧
          (t₂.subs j).inUse = ((t.subs j).inUse && decide (j ≠ i)) ∧
          (t₂.subs j).exactNext = next' j ∧
          (t₂.subs j).wildcardNext = (t.subs j).wildcardNext := by
        intro j
        by_cases hj : j = i <;> simp [t₂, t₁, hj]
      refine ⟨t₂, hrun', ⟨Function.update exact bucket ((exact bucket).erase i), wild, ?_⟩,
        fun j ↦ ⟨(hframe₂ j).1, (hframe₂ j).2.1, (hframe₂ j).2.2.1, (hframe₂ j).2.2.2.2.1⟩⟩
      have hnext : t₂.exactNext = next' := funext fun j ↦ (hframe₂ j).2.2.2.2.2.1
      refine ⟨fun b ↦ ?_, fun b ↦ ?_, fun b j ↦ ?_, ?_, h.wild_nodup, fun j ↦ ?_, fun j ↦ ?_⟩
      · rw [hnext]
        by_cases hb : b = bucket
        · subst hb
          simpa [t₂, t₁] using hchain
        · -- the lists of two buckets share no slot
          have hdisj : ∀ j ∈ exact b, j ∉ exact bucket := by
            intro j hj hj'
            exact hb (((h.mem_exact b j).mp hj).2.2.symm.trans
              ((h.mem_exact bucket j).mp hj').2.2)
          simpa [t₂, t₁, hb] using (h.exact_chain b).congr fun j hj ↦ hframe j (hdisj j hj)
      · by_cases hb : b = bucket
        · subst hb
          simpa using (h.exact_nodup _).erase i
        · simpa [hb] using h.exact_nodup b
      · obtain ⟨-, hf, -, hxj, huse, -⟩ := hframe₂ j
        rw [hf, hxj, huse]
        by_cases hb : b = bucket
        · subst hb
          simp [(h.exact_nodup _).mem_erase_iff, h.mem_exact]
          tauto
        · by_cases hj : j = i
          · subst hj
            simp [hb, h.mem_exact, hbucket, Ne.symm hb]
          · simp [hb, hj, h.mem_exact]
      · have hwn : t₂.wildcardNext = t.wildcardNext :=
          funext fun j ↦ (hframe₂ j).2.2.2.2.2.2
        rw [hwn]
        exact h.wild_chain
      · obtain ⟨-, -, -, hxj, huse, -⟩ := hframe₂ j
        rw [hxj, huse, h.mem_wild]
        by_cases hj : j = i
        · simp [hj, hx]
        · simp [hj]
      · obtain ⟨-, hf, -, hxj, huse, -⟩ := hframe₂ j
        rw [hf, hxj, huse]
        intro hu
        exact h.exact_plain j (Bool.and_eq_true_iff.mp hu).1
  | false =>
      obtain ⟨head', next', hrun, hchain, -⟩ :=
        h.wild_chain.unlink h.wild_nodup i (nodup_length_le h.wild_nodup)
      let t₁ : TopicTable cfg κ :=
        { t with
          subs := fun j ↦ { t.subs j with wildcardNext := next' j }
          wildcardHead := head' }
      let t₂ : TopicTable cfg κ :=
        { t₁ with subs := Function.update t₁.subs i { t₁.subs i with inUse := false } }
      have hrun' : t.removeSlot i = some t₂ := by
        simp [TopicTable.removeSlot, hx, wildcardListRemove, hrun, t₁, t₂]
      have hframe₂ : ∀ j, (t₂.subs j).client = (t.subs j).client ∧
          (t₂.subs j).filter = (t.subs j).filter ∧ (t₂.subs j).qos = (t.subs j).qos ∧
          (t₂.subs j).isExact = (t.subs j).isExact ∧
          (t₂.subs j).inUse = ((t.subs j).inUse && decide (j ≠ i)) ∧
          (t₂.subs j).exactNext = (t.subs j).exactNext ∧
          (t₂.subs j).wildcardNext = next' j := by
        intro j
        by_cases hj : j = i <;> simp [t₂, t₁, hj]
      refine ⟨t₂, hrun', ⟨exact, wild.erase i, ?_⟩,
        fun j ↦ ⟨(hframe₂ j).1, (hframe₂ j).2.1, (hframe₂ j).2.2.1, (hframe₂ j).2.2.2.2.1⟩⟩
      have hnext : t₂.wildcardNext = next' := funext fun j ↦ (hframe₂ j).2.2.2.2.2.2
      refine ⟨fun b ↦ ?_, h.exact_nodup, fun b j ↦ ?_, ?_, h.wild_nodup.erase i, fun j ↦ ?_,
        fun j ↦ ?_⟩
      · have hxn : t₂.exactNext = t.exactNext := funext fun j ↦ (hframe₂ j).2.2.2.2.2.1
        rw [hxn]
        exact h.exact_chain b
      · obtain ⟨-, hf, -, hxj, huse, -⟩ := hframe₂ j
        rw [hf, hxj, huse, h.mem_exact]
        by_cases hj : j = i
        · simp [hj, hx]
        · simp [hj]
      · rw [hnext]
        exact hchain
      · obtain ⟨-, -, -, hxj, huse, -⟩ := hframe₂ j
        rw [hxj, huse, h.wild_nodup.mem_erase_iff, h.mem_wild]
        by_cases hj : j = i <;> simp [hj]
      · obtain ⟨-, hf, -, hxj, huse, -⟩ := hframe₂ j
        rw [hf, hxj, huse]
        intro hu
        exact h.exact_plain j (Bool.and_eq_true_iff.mp hu).1

/-- Freeing a slot changes only links and its own `in_use`. -/
theorem removeSlot_entry {t t' : TopicTable cfg κ} {i : Slot cfg} (h : t.removeSlot i = some t')
    (j : Slot cfg) : ∃ exactNext wildcardNext, t'.subs j =
      { t.subs j with
        inUse := (t.subs j).inUse && decide (j ≠ i)
        exactNext := exactNext
        wildcardNext := wildcardNext } := by
  unfold TopicTable.removeSlot at h
  split_ifs at h
  · obtain ⟨t₁, hunlink, h⟩ := Option.bind_eq_some_iff.mp h
    obtain ⟨r, -, rfl⟩ := Option.map_eq_some_iff.mp hunlink
    obtain rfl := Option.some.inj h
    refine ⟨r.2 j, (t.subs j).wildcardNext, ?_⟩
    by_cases hj : j = i
    · subst hj
      simp
    · simp [hj]
  · obtain ⟨t₁, hunlink, h⟩ := Option.bind_eq_some_iff.mp h
    obtain ⟨r, -, rfl⟩ := Option.map_eq_some_iff.mp hunlink
    obtain rfl := Option.some.inj h
    refine ⟨(t.subs j).exactNext, r.2 j, ?_⟩
    by_cases hj : j = i
    · subst hj
      simp
    · simp [hj]

theorem removeSlot_frame {t t' : TopicTable cfg κ} {i : Slot cfg} (h : t.removeSlot i = some t')
    (j : Slot cfg) : (t'.subs j).client = (t.subs j).client ∧
      (t'.subs j).filter = (t.subs j).filter ∧ (t'.subs j).qos = (t.subs j).qos ∧
      (t'.subs j).inUse = ((t.subs j).inUse && decide (j ≠ i)) := by
  obtain ⟨_, _, hentry⟩ := removeSlot_entry h j
  rw [hentry]
  exact ⟨rfl, rfl, rfl, rfl⟩

/-- What filling a slot makes of the entries, up to their links. -/
theorem fillSlot_frame (t : TopicTable cfg κ) (i : Slot cfg) (c : κ) (filter : CStr)
    (qos : UInt8) :
    (((t.fillSlot i c filter qos).subs i).client = c ∧
      ((t.fillSlot i c filter qos).subs i).filter = filter.take (MQTT_TOPIC_MAX - 1) ∧
      ((t.fillSlot i c filter qos).subs i).qos = qos ∧
      ((t.fillSlot i c filter qos).subs i).inUse = true) ∧
    ∀ j, j ≠ i → ((t.fillSlot i c filter qos).subs j).inUse = (t.subs j).inUse ∧
      ((t.fillSlot i c filter qos).subs j).client = (t.subs j).client ∧
      ((t.fillSlot i c filter qos).subs j).filter = (t.subs j).filter ∧
      ((t.fillSlot i c filter qos).subs j).qos = (t.subs j).qos := by
  unfold TopicTable.fillSlot
  dsimp only
  split_ifs
  · exact ⟨by simp [exactListInsert], fun j hj ↦ by simp [exactListInsert, hj]⟩
  · exact ⟨by simp [wildcardListInsert], fun j hj ↦ by simp [wildcardListInsert, hj]⟩

theorem findFree_free {t : TopicTable cfg κ} {i : Slot cfg} (h : t.findFree = some i) :
    (t.subs i).inUse = false := by
  simpa using List.find?_some h

variable [DecidableEq κ]

theorem findSub_inUse {t : TopicTable cfg κ} {c : κ} {filter : CStr} {i : Slot cfg}
    (h : t.findSub c filter = some i) : (t.subs i).inUse = true := by
  have hp := List.find?_some h
  simp only [Bool.and_eq_true] at hp
  exact hp.1.1

theorem IsLinked.topicSubscribe {t : TopicTable cfg κ} (h : t.IsLinked) (c : κ)
    (filter : CStr) (qos : UInt8) : (t.topicSubscribe c filter qos).1.IsLinked := by
  unfold TopicTable.topicSubscribe
  cases hfind : t.findSub c filter with
  | some i =>
      obtain ⟨exact, wild, h⟩ := h
      refine ⟨exact, wild, h.congr rfl rfl fun j ↦ ?_⟩
      by_cases hj : j = i
      · subst hj
        simp
      · simp [hj]
  | none =>
      cases hfree : t.findFree with
      | some i => exact h.fillSlot (findFree_free hfree) c filter qos
      | none => exact h

theorem IsLinked.topicUnsubscribe {t : TopicTable cfg κ} (h : t.IsLinked) (c : κ)
    (filter : CStr) : ∃ r, t.topicUnsubscribe c filter = some r ∧ r.1.IsLinked := by
  unfold TopicTable.topicUnsubscribe
  cases hfind : t.findSub c filter with
  | none => exact ⟨_, rfl, h⟩
  | some i =>
      obtain ⟨t', hrun, hlinked, -⟩ := h.removeSlot (findSub_inUse hfind)
      simp only [hrun]
      exact ⟨_, rfl, hlinked⟩

/-! ### The subscriptions of one client -/

omit [DecidableEq κ] in
/-- The table holds no subscription of client `c`. -/
def NoneOf (t : TopicTable cfg κ) (c : κ) : Prop :=
  ∀ i, (t.subs i).inUse = true → (t.subs i).client ≠ c

omit [DecidableEq κ] in
theorem NoneOf.removeSlot {t t' : TopicTable cfg κ} {c : κ} (h : t.NoneOf c) {i : Slot cfg}
    (hrun : t.removeSlot i = some t') : t'.NoneOf c := by
  intro j hj
  obtain ⟨hclient, -, -, huse⟩ := removeSlot_frame hrun j
  rw [huse] at hj
  rw [hclient]
  exact h j (Bool.and_eq_true_iff.mp hj).1

theorem NoneOf.topicSubscribe {t : TopicTable cfg κ} {c d : κ} (h : t.NoneOf c) (hne : c ≠ d)
    (filter : CStr) (qos : UInt8) : (t.topicSubscribe d filter qos).1.NoneOf c := by
  unfold TopicTable.topicSubscribe
  cases t.findSub d filter with
  | some i =>
      intro j
      by_cases hj : j = i
      · subst hj
        simpa using h j
      · simpa [hj] using h j
  | none =>
      cases t.findFree with
      | none => exact h
      | some i =>
          intro j
          obtain ⟨hself, hother⟩ := fillSlot_frame t i d filter qos
          by_cases hj : j = i
          · subst hj
            rw [hself.1]
            exact fun _ ↦ hne.symm
          · rw [(hother j hj).1, (hother j hj).2.1]
            exact h j

theorem NoneOf.topicUnsubscribe {t : TopicTable cfg κ} {c d : κ} (h : t.NoneOf c) {filter : CStr}
    {r : TopicTable cfg κ × List Notify} (hrun : t.topicUnsubscribe d filter = some r) :
    r.1.NoneOf c := by
  unfold TopicTable.topicUnsubscribe at hrun
  split at hrun
  · obtain rfl := Option.some.inj hrun
    exact h
  · obtain ⟨t', hremove, hrun⟩ := Option.bind_eq_some_iff.mp hrun
    obtain rfl := Option.some.inj hrun
    exact h.removeSlot hremove

/-- Only subscriptions of client `c` are gone. -/
structure Removed (t : TopicTable cfg κ) (c : κ) (t' : TopicTable cfg κ) : Prop where
  client : ∀ {j}, (t'.subs j).client = (t.subs j).client
  filter : ∀ {j}, (t'.subs j).filter = (t.subs j).filter
  qos : ∀ {j}, (t'.subs j).qos = (t.subs j).qos
  inUse : ∀ {j}, (t'.subs j).inUse = true → (t.subs j).inUse = true
  others : ∀ {j}, (t.subs j).client ≠ c → (t'.subs j).inUse = (t.subs j).inUse

omit [DecidableEq κ] in
theorem Removed.refl (t : TopicTable cfg κ) (c : κ) : t.Removed c t :=
  ⟨rfl, rfl, rfl, fun h ↦ h, fun _ ↦ rfl⟩

omit [DecidableEq κ] in
theorem Removed.trans {a b d : TopicTable cfg κ} {c : κ} (h : a.Removed c b)
    (h' : b.Removed c d) : a.Removed c d where
  client := h'.client.trans h.client
  filter := h'.filter.trans h.filter
  qos := h'.qos.trans h.qos
  inUse hj := h.inUse (h'.inUse hj)
  others hj := (h'.others (h.client ▸ hj)).trans (h.others hj)

omit [DecidableEq κ] in
theorem Removed.noneOf {t t' : TopicTable cfg κ} {c d : κ} (h : t.Removed d t')
    (hnone : t.NoneOf c) : t'.NoneOf c := fun i hi ↦ h.client ▸ hnone i (h.inUse hi)

omit [DecidableEq κ] in
theorem removed_removeSlot {t t' : TopicTable cfg κ} {i : Slot cfg} {c : κ}
    (hi : (t.subs i).client = c) (h : t.removeSlot i = some t') : t.Removed c t' := by
  have hframe := removeSlot_frame h
  refine ⟨(hframe _).1, (hframe _).2.1, (hframe _).2.2.1, fun hj ↦ ?_, @fun j hj ↦ ?_⟩
  · rw [(hframe _).2.2.2] at hj
    exact (Bool.and_eq_true_iff.mp hj).1
  · have hne : j ≠ i := fun hji ↦ hj (by rw [hji]; exact hi)
    rw [(hframe j).2.2.2, decide_eq_true hne, Bool.and_true]

/-- The loop of `topic_unsubscribe_all` without P2P. -/
theorem foldlM_remove {c : κ} {l : List (Slot cfg)} {t t' : TopicTable cfg κ}
    (h : l.foldlM (fun t i ↦ if (t.subs i).inUse ∧ (t.subs i).client = c then t.removeSlot i
      else some t) t = some t') :
    t.Removed c t' ∧ ∀ i ∈ l, (t'.subs i).inUse = true → (t'.subs i).client ≠ c := by
  induction l generalizing t with
  | nil =>
      obtain rfl := Option.some.inj h
      exact ⟨.refl t c, by simp⟩
  | cons i l ih =>
      rw [List.foldlM_cons] at h
      obtain ⟨t₁, hstep, hrest⟩ := Option.bind_eq_some_iff.mp h
      obtain ⟨hframe, hgone⟩ := ih hrest
      have hone : t.Removed c t₁ ∧ ((t₁.subs i).inUse = true → (t₁.subs i).client ≠ c) := by
        split_ifs at hstep with hi
        · refine ⟨removed_removeSlot hi.2 hstep, fun huse ↦ ?_⟩
          rw [(removeSlot_frame hstep i).2.2.2] at huse
          simp at huse
        · obtain rfl := Option.some.inj hstep
          exact ⟨.refl t c, fun hu hc ↦ hi ⟨hu, hc⟩⟩
      refine ⟨hone.1.trans hframe, fun j hj huse ↦ ?_⟩
      rcases List.mem_cons.mp hj with rfl | hj
      · rw [hframe.client]
        exact hone.2 (hframe.inUse huse)
      · exact hgone j hj huse

section Keeps

variable {c : κ} {P : TopicTable cfg κ → Prop}

theorem foldlM_remove_keeps
    (hstep : ∀ {t t' : TopicTable cfg κ} {i : Slot cfg}, P t → (t.subs i).client = c →
      t.removeSlot i = some t' → P t')
    {l : List (Slot cfg)} {t t' : TopicTable cfg κ} (ht : P t)
    (h : l.foldlM (fun t i ↦ if (t.subs i).inUse ∧ (t.subs i).client = c then t.removeSlot i
      else some t) t = some t') : P t' := by
  induction l generalizing t with
  | nil =>
      cases h
      exact ht
  | cons i l ih =>
      rw [List.foldlM_cons] at h
      obtain ⟨t₁, hone, h⟩ := Option.bind_eq_some_iff.mp h
      split_ifs at hone with hi
      · exact ih (hstep ht hi.2 hone) h
      · cases hone
        exact ih ht h

theorem unsubscribeRounds_keeps
    (hstep : ∀ {t t' : TopicTable cfg κ} {i : Slot cfg}, P t → (t.subs i).client = c →
      t.removeSlot i = some t' → P t')
    {k : ℕ} {t : TopicTable cfg κ} {r : TopicTable cfg κ × List Notify} (ht : P t)
    (h : unsubscribeRounds c k t = some r) : P r.1 := by
  induction k generalizing t r with
  | zero => cases h
  | succ k ih =>
      rw [TopicTable.unsubscribeRounds] at h
      split at h
      · cases h
        exact ht
      · next i hfind =>
          obtain ⟨t', hremove, h⟩ := Option.bind_eq_some_iff.mp h
          obtain ⟨r', hrest, h⟩ := Option.bind_eq_some_iff.mp h
          cases h
          have hi : (t.subs i).inUse = true ∧ (t.subs i).client = c := by
            simpa using List.find?_some hfind
          have hkept : P r'.1 := ih (hstep ht hi.2 hremove) hrest
          exact hkept

/-- What every removal of a slot of the client keeps is kept by `topic_unsubscribe_all`. -/
theorem topicUnsubscribeAll_keeps
    (hstep : ∀ {t t' : TopicTable cfg κ} {i : Slot cfg}, P t → (t.subs i).client = c →
      t.removeSlot i = some t' → P t')
    {t : TopicTable cfg κ} {r : TopicTable cfg κ × List Notify} (ht : P t)
    (h : t.topicUnsubscribeAll c = some r) : P r.1 := by
  unfold TopicTable.topicUnsubscribeAll at h
  split_ifs at h
  · exact unsubscribeRounds_keeps hstep ht h
  · obtain ⟨t', hloop, h⟩ := Option.bind_eq_some_iff.mp h
    cases h
    exact foldlM_remove_keeps hstep ht hloop

end Keeps

/-- Only subscriptions of the client go. -/
theorem removed_topicUnsubscribeAll {c : κ} {t : TopicTable cfg κ}
    {r : TopicTable cfg κ × List Notify} (h : t.topicUnsubscribeAll c = some r) :
    t.Removed c r.1 := by
  refine topicUnsubscribeAll_keeps (fun hkept hi hremove ↦ ?_) (Removed.refl t c) h
  exact hkept.trans (removed_removeSlot hi hremove)

/-- How many slots client `c` still holds. -/
def heldBy (t : TopicTable cfg κ) (c : κ) : Finset (Slot cfg) :=
  Finset.univ.filter fun i ↦ (t.subs i).inUse = true ∧ (t.subs i).client = c

/-- Every round frees one slot of the client, so the rounds end. -/
theorem IsLinked.unsubscribeRounds {t : TopicTable cfg κ} (h : t.IsLinked) (c : κ) {k : ℕ}
    (hk : (t.heldBy c).card < k) :
    ∃ r, unsubscribeRounds c k t = some r ∧ r.1.IsLinked := by
  induction k generalizing t with
  | zero => simp at hk
  | succ k ih =>
      rw [TopicTable.unsubscribeRounds]
      cases hfind : (List.finRange cfg.topicMaxSubs).find? fun i ↦
          (t.subs i).inUse && (t.subs i).client = c with
      | none => exact ⟨_, rfl, h⟩
      | some i =>
          have hi : (t.subs i).inUse = true ∧ (t.subs i).client = c := by
            simpa using List.find?_some hfind
          obtain ⟨t', hrun, hlinked, hframe⟩ := h.removeSlot hi.1
          have hsub : t'.heldBy c ⊂ t.heldBy c := by
            refine Finset.ssubset_iff_subset_ne.mpr ⟨fun j hj ↦ ?_, fun heq ↦ ?_⟩
            · obtain ⟨hc, -, -, hu⟩ := hframe j
              simp only [heldBy, Finset.mem_filter, Finset.mem_univ, true_and, hc, hu,
                Bool.and_eq_true] at hj ⊢
              exact ⟨hj.1.1, hj.2⟩
            · have hmem : i ∈ t'.heldBy c := by rw [heq]; simpa [heldBy] using hi
              simp [heldBy, hframe i] at hmem
          have hcard := Finset.card_lt_card hsub
          obtain ⟨r, hr, hlr⟩ := ih hlinked (by omega)
          simp only [hrun, Option.bind_eq_bind, Option.bind_some, hr]
          exact ⟨_, rfl, hlr⟩

theorem IsLinked.topicUnsubscribeAll {t : TopicTable cfg κ} (h : t.IsLinked) (c : κ) :
    ∃ r, t.topicUnsubscribeAll c = some r ∧ r.1.IsLinked := by
  unfold TopicTable.topicUnsubscribeAll
  by_cases hp : cfg.p2pDynamic = true
  · rw [if_pos hp]
    refine h.unsubscribeRounds c (Nat.lt_succ_of_le ?_)
    simpa using Finset.card_le_univ (t.heldBy c)
  · rw [if_neg hp]
    suffices ∀ (l : List (Slot cfg)) (t : TopicTable cfg κ), t.IsLinked →
        ∃ t', l.foldlM (fun t i ↦ if (t.subs i).inUse ∧ (t.subs i).client = c then
          t.removeSlot i else some t) t = some t' ∧ t'.IsLinked by
      obtain ⟨t', hrun, hlinked⟩ := this (List.finRange cfg.topicMaxSubs) t h
      exact ⟨(t', []), by simp [hrun], hlinked⟩
    intro l
    induction l with
    | nil => exact fun t h ↦ ⟨t, rfl, h⟩
    | cons i l ih =>
        intro t h
        rw [List.foldlM_cons]
        by_cases hi : (t.subs i).inUse = true ∧ (t.subs i).client = c
        · obtain ⟨t', hrun, hlinked, -⟩ := h.removeSlot hi.1
          simpa [hi, hrun] using ih t' hlinked
        · simpa [hi] using ih t h

/-- Every call ends and keeps the lists. -/
theorem IsLinked.apply {t : TopicTable cfg κ} (h : t.IsLinked) (op : TopicOp κ) :
    ∃ t', t.apply op = some t' ∧ t'.IsLinked := by
  cases op with
  | subscribe c filter qos => exact ⟨_, rfl, h.topicSubscribe c filter qos⟩
  | unsubscribe c filter =>
      obtain ⟨r, hr, hl⟩ := h.topicUnsubscribe c filter
      exact ⟨r.1, by simp [TopicTable.apply, hr], hl⟩
  | unsubscribeAll c =>
      obtain ⟨r, hr, hl⟩ := h.topicUnsubscribeAll c
      exact ⟨r.1, by simp [TopicTable.apply, hr], hl⟩

theorem IsLinked.foldlM {t : TopicTable cfg κ} (h : t.IsLinked) (ops : List (TopicOp κ)) :
    ∃ t', ops.foldlM TopicTable.apply t = some t' ∧ t'.IsLinked := by
  induction ops generalizing t with
  | nil => exact ⟨t, rfl, h⟩
  | cons op ops ih =>
      obtain ⟨t₁, hrun, hl⟩ := h.apply op
      obtain ⟨t', hrest, hl'⟩ := ih hl
      exact ⟨t', by simp [List.foldlM_cons, hrun, hrest], hl'⟩

end TopicTable

/-- Every sequence of calls since `topic_init` ends, in a linked table. -/
theorem topicRun_isLinked [DecidableEq κ] [Inhabited κ] (cfg : Config)
    (ops : List (TopicOp κ)) : ∃ t, topicRun cfg ops = some t ∧ t.IsLinked :=
  TopicTable.isLinked_init.foldlM ops

end MqttBroker
