import MqttBroker.Client.Threads
import MqttBroker.Topic.Subscriptions

/-!
# Who holds a filter

What a change of the table means for each filter, and what the caller is told to announce.
-/

namespace MqttBroker

variable {κ : Type} {cfg : Config}

/-- The filter that a notification is about. -/
def Notify.filter : Notify → CStr
  | .localSubscribe filter _ => filter
  | .localUnsubscribe filter => filter

/-- The notification is a SUB_NOTIFY. -/
def Notify.isSub : Notify → Bool
  | .localSubscribe _ _ => true
  | .localUnsubscribe _ => false

/-- `p2p_local_subscribe` and `p2p_local_unsubscribe` do not return at once. -/
def Notify.fits : Notify → Bool
  | .localSubscribe filter qos => qos ≤ 2 && filter.length < MQTT_TOPIC_MAX
  | .localUnsubscribe filter => filter.length < MQTT_TOPIC_MAX

namespace TopicTable

/-- Slot `i` holds the filter. -/
def HoldsAt (t : TopicTable cfg κ) (filter : CStr) (i : Slot cfg) : Prop :=
  (t.subs i).inUse = true ∧ (t.subs i).filter = filter

instance (t : TopicTable cfg κ) (filter : CStr) : DecidablePred (t.HoldsAt filter) :=
  fun _ ↦ inferInstanceAs (Decidable (_ ∧ _))

/-- Some client holds the filter. -/
def Held (t : TopicTable cfg κ) (filter : CStr) : Prop := ∃ i, t.HoldsAt filter i

instance (t : TopicTable cfg κ) (filter : CStr) : Decidable (t.Held filter) :=
  inferInstanceAs (Decidable (∃ i, t.HoldsAt filter i))

theorem holdsAt_iff {t : TopicTable cfg κ} {filter : CStr} {i : Slot cfg} :
    t.HoldsAt filter i ↔ ∃ x, t.sub i = some x ∧ x.filter = filter := by
  constructor
  · rintro ⟨huse, rfl⟩
    exact ⟨⟨(t.subs i).client, (t.subs i).filter, (t.subs i).qos⟩,
      sub_eq_some_iff.mpr ⟨huse, rfl, rfl, rfl⟩, rfl⟩
  · rintro ⟨x, hx, rfl⟩
    obtain ⟨huse, -, hfilter, -⟩ := sub_eq_some_iff.mp hx
    exact ⟨huse, hfilter⟩

/-- Subscriptions have the lengths and QoS that `p2p_local_subscribe` accepts. -/
def Announceable (t : TopicTable cfg κ) : Prop :=
  t.SubsAll fun x ↦ x.qos ≤ 2 ∧ x.filter.length < MQTT_TOPIC_MAX

/-! ## Counting -/

theorem filterStats_fst (t : TopicTable cfg κ) (filter : CStr) :
    (t.filterStats filter).1 = (Finset.univ.filter (t.HoldsAt filter)).card := by
  have hfold : ∀ (l : List (Slot cfg)) (r : ℕ × UInt8), (l.foldl (fun r i ↦
      if (t.subs i).inUse ∧ (t.subs i).filter = filter then
        (r.1 + 1, if r.2 < (t.subs i).qos then (t.subs i).qos else r.2)
      else r) r).1 = r.1 + l.countP fun i ↦ t.HoldsAt filter i := by
    intro l
    induction l with
    | nil => exact fun _ ↦ rfl
    | cons i l ih =>
        intro r
        rw [List.foldl_cons, ih, List.countP_cons]
        have hiff : t.HoldsAt filter i ↔ (t.subs i).inUse = true ∧ (t.subs i).filter = filter :=
          Iff.rfl
        simp only [decide_eq_true_eq, hiff]
        split_ifs <;> omega
  have hset : Finset.univ.filter (t.HoldsAt filter) =
      ((List.finRange cfg.topicMaxSubs).filter fun i ↦ t.HoldsAt filter i).toFinset := by
    ext i
    simp
  rw [filterStats, hfold, Nat.zero_add, hset, List.countP_eq_length_filter,
    List.toFinset_card_of_nodup ((List.nodup_finRange _).filter _)]

theorem filterStats_snd_le {t : TopicTable cfg κ} (h : t.Announceable) (filter : CStr) :
    (t.filterStats filter).2 ≤ 2 := by
  have hfold : ∀ (l : List (Slot cfg)) (r : ℕ × UInt8), r.2 ≤ 2 → (l.foldl (fun r i ↦
      if (t.subs i).inUse ∧ (t.subs i).filter = filter then
        (r.1 + 1, if r.2 < (t.subs i).qos then (t.subs i).qos else r.2)
      else r) r).2 ≤ 2 := by
    intro l
    induction l with
    | nil => exact fun _ hr ↦ hr
    | cons i l ih =>
        intro r hr
        rw [List.foldl_cons]
        refine ih _ ?_
        split_ifs with hi
        · have hx := sub_eq_some_iff (x := ⟨(t.subs i).client, (t.subs i).filter, (t.subs i).qos⟩)
            |>.mpr ⟨hi.1, rfl, rfl, rfl⟩
          exact (h i _ hx).1
        · exact hr
        · exact hr
  exact hfold _ _ (by decide)

theorem held_iff_stats {t : TopicTable cfg κ} {filter : CStr} :
    t.Held filter ↔ 0 < (t.filterStats filter).1 := by
  rw [filterStats_fst, Finset.card_pos]
  exact ⟨fun ⟨i, hi⟩ ↦ ⟨i, by simpa using hi⟩, fun ⟨i, hi⟩ ↦ ⟨i, by simpa using hi⟩⟩

/-! ## What a section under the lock means -/

/-- Nothing is announced and the same filters are held, or one notification is, which says
whether its filter is held now, and the others are held as before. -/
def Announces (t t' : TopicTable cfg κ) (notes : List Notify) : Prop :=
  (notes = [] ∧ ∀ f, t'.Held f ↔ t.Held f) ∨ ∃ m, notes = [m] ∧ m.fits = true ∧
    (t'.Held m.filter ↔ m.isSub = true) ∧ ∀ f, f ≠ m.filter → (t'.Held f ↔ t.Held f)

section

variable {t t' : TopicTable cfg κ} {i : Slot cfg} {x : Subscription κ}

/-- A slot that was free or held the same filter is written. -/
theorem held_update_some (heq : t'.sub = Function.update t.sub i (some x))
    (hold : ∀ y, t.sub i = some y → y.filter = x.filter) (f : CStr) :
    t'.Held f ↔ f = x.filter ∨ t.Held f := by
  unfold Held
  simp only [holdsAt_iff, heq]
  constructor
  · rintro ⟨j, y, hy, rfl⟩
    by_cases hj : j = i
    · rw [hj, Function.update_self] at hy
      cases hy
      exact .inl rfl
    · rw [Function.update_of_ne hj] at hy
      exact .inr ⟨j, y, hy, rfl⟩
  · rintro (rfl | ⟨j, y, hy, rfl⟩)
    · exact ⟨i, x, Function.update_self _ _ _, rfl⟩
    · by_cases hj : j = i
      · subst hj
        exact ⟨j, x, Function.update_self _ _ _, (hold y hy).symm⟩
      · exact ⟨j, y, by rw [Function.update_of_ne hj, hy], rfl⟩

theorem announces_subscribe {filter : CStr} {q : UInt8} {p : Prop} [Decidable p]
    (hheld : ∀ f, t'.Held f ↔ f = filter ∨ t.Held f) (hq : q ≤ 2)
    (hlen : filter.length < MQTT_TOPIC_MAX) (hnot : ¬ p → t.Held filter) :
    t.Announces t' (if p then [.localSubscribe filter q] else []) := by
  split_ifs with hp
  · refine .inr ⟨_, rfl, by simp [Notify.fits, hq, hlen], ?_, fun f hf ↦ ?_⟩
    · rw [hheld]
      exact iff_of_true (.inl rfl) rfl
    · rw [hheld]
      exact or_iff_right hf
  · refine .inl ⟨rfl, fun f ↦ ?_⟩
    rw [hheld]
    refine or_iff_right_of_imp ?_
    rintro rfl
    exact hnot hp

/-- A slot is freed. -/
theorem filterStats_update_none (heq : t'.sub = Function.update t.sub i none)
    (hx : t.sub i = some x) : (t'.filterStats x.filter).1 + 1 = (t.filterStats x.filter).1 := by
  have hi : i ∈ Finset.univ.filter (t.HoldsAt x.filter) := by
    simpa using holdsAt_iff.mpr ⟨x, hx, rfl⟩
  have herase : Finset.univ.filter (t'.HoldsAt x.filter) =
      (Finset.univ.filter (t.HoldsAt x.filter)).erase i := by
    ext j
    simp only [Finset.mem_filter, Finset.mem_univ, true_and, Finset.mem_erase, holdsAt_iff, heq]
    by_cases hj : j = i
    · subst hj
      simp
    · simp [hj]
  rw [filterStats_fst, filterStats_fst, herase, Finset.card_erase_of_mem hi]
  exact Nat.sub_add_cancel (Finset.card_pos.mpr ⟨i, hi⟩)

theorem held_update_none (heq : t'.sub = Function.update t.sub i none) (hx : t.sub i = some x)
    {f : CStr} (hf : f ≠ x.filter) : t'.Held f ↔ t.Held f := by
  refine exists_congr fun j ↦ ?_
  rw [holdsAt_iff, holdsAt_iff, heq]
  by_cases hj : j = i
  · subst hj
    rw [Function.update_self, hx]
    refine iff_of_false (by rintro ⟨_, ⟨⟩, -⟩) ?_
    rintro ⟨_, hy, rfl⟩
    cases hy
    exact hf rfl
  · rw [Function.update_of_ne hj]

theorem announces_remove {notes : List Notify} (heq : t'.sub = Function.update t.sub i none)
    (hx : t.sub i = some x) (hlen : x.filter.length < MQTT_TOPIC_MAX)
    (hlast : (t'.filterStats x.filter).1 = 0 → notes = [.localUnsubscribe x.filter])
    (hmore : 0 < (t'.filterStats x.filter).1 → notes = [] ∨
      ∃ q ≤ 2, notes = [.localSubscribe x.filter q]) : t.Announces t' notes := by
  have hheld : t.Held x.filter := ⟨i, holdsAt_iff.mpr ⟨x, hx, rfl⟩⟩
  rcases Nat.eq_zero_or_pos (t'.filterStats x.filter).1 with hzero | hpos
  · refine .inr ⟨_, hlast hzero, by simpa [Notify.fits] using hlen, ?_,
      fun f hf ↦ held_update_none heq hx hf⟩
    refine iff_of_false (fun h ↦ ?_) (by simp [Notify.isSub])
    exact absurd (held_iff_stats.mp h) (by simp [Notify.filter, hzero])
  · rcases hmore hpos with hnone | ⟨q, hq, hsub⟩
    · refine .inl ⟨hnone, fun f ↦ ?_⟩
      by_cases hf : f = x.filter
      · subst hf
        exact iff_of_true (held_iff_stats.mpr hpos) hheld
      · exact held_update_none heq hx hf
    · refine .inr ⟨_, hsub, by simp [Notify.fits, hq, hlen], ?_,
        fun f hf ↦ held_update_none heq hx hf⟩
      exact iff_of_true (held_iff_stats.mpr hpos) rfl

end

/-! ## Filters that stay held -/

section

variable [DecidableEq κ] {t : TopicTable cfg κ}

theorem Held.topicSubscribe {f : CStr} (h : t.Held f) (c : κ) (filter : CStr) (qos : UInt8) :
    (t.topicSubscribe c filter qos).1.Held f := by
  rcases t.topicSubscribe_cases c filter qos with
    ⟨i, hfind, heq⟩ | ⟨-, ⟨i, hfree, heq⟩ | ⟨-, heq⟩⟩
  · refine (held_update_some heq (fun y hy ↦ ?_) f).mpr (.inr h)
    cases (findSub_some hfind).symm.trans hy
    rfl
  · refine (held_update_some heq (fun y hy ↦ ?_) f).mpr (.inr h)
    cases (sub_eq_none_iff.mpr (findFree_free hfree)).symm.trans hy
  · rwa [heq]

theorem Held.topicUnsubscribe {f : CStr} (h : t.Held f) {c : κ} {filter : CStr}
    {r : TopicTable cfg κ × List Notify} (hrun : t.topicUnsubscribe c filter = some r)
    (hne : f ≠ filter) : r.1.Held f := by
  rcases topicUnsubscribe_cases hrun with ⟨i, hfind, heq⟩ | ⟨-, rfl⟩
  · exact (held_update_none heq (findSub_some hfind) hne).mpr h
  · exact h

theorem removed_topicUnsubscribe {c : κ} {filter : CStr} {r : TopicTable cfg κ × List Notify}
    (hrun : t.topicUnsubscribe c filter = some r) : t.Removed c r.1 := by
  rw [topicUnsubscribe] at hrun
  cases hfind : t.findSub c filter with
  | none =>
      rw [hfind] at hrun
      cases hrun
      exact .refl t c
  | some i =>
      rw [hfind] at hrun
      obtain ⟨t', hremove, hrun⟩ := Option.bind_eq_some_iff.mp hrun
      cases hrun
      exact removed_removeSlot (sub_eq_some_iff.mp (findSub_some hfind)).2.1 hremove

omit [DecidableEq κ] in
theorem Removed.held {t' : TopicTable cfg κ} {c : κ} (h : t.Removed c t') {f : CStr}
    (hf : t'.Held f) : t.Held f := by
  obtain ⟨i, huse, rfl⟩ := hf
  exact ⟨i, h.inUse huse, h.filter.symm⟩

omit [DecidableEq κ] in
/-- What another client holds stays held. -/
theorem Removed.held_of_other {t' : TopicTable cfg κ} {c : κ} (h : t.Removed c t') {f : CStr}
    {i : Slot cfg} (hi : t.HoldsAt f i) (hc : (t.subs i).client ≠ c) : t'.Held f :=
  ⟨i, (h.others hc).trans hi.1, h.filter.trans hi.2⟩

end

/-! ## The three calls -/

variable [DecidableEq κ] {t : TopicTable cfg κ} (hp : cfg.p2pDynamic = true) (h : t.Announceable)

include hp h

theorem topicSubscribe_announces (c : κ) {filter : CStr} {qos : UInt8}
    (hlen : filter.length < MQTT_TOPIC_MAX) (hqos : qos ≤ 2) :
    t.Announces (t.topicSubscribe c filter qos).1 (t.topicSubscribe c filter qos).2.2 := by
  have hafter : (t.topicSubscribe c filter qos).1.Announceable := by
    refine SubsAll.topicSubscribe h fun n ↦ ⟨hqos, ?_⟩
    exact lt_of_le_of_lt (List.length_take_le' _ _) hlen
  have hold := filterStats_snd_le h filter
  have htake : filter.take (MQTT_TOPIC_MAX - 1) = filter :=
    List.take_of_length_le (by omega)
  rcases t.topicSubscribe_cases c filter qos with
    ⟨i, hfind, heq⟩ | ⟨hfind, ⟨i, hfree, heq⟩ | ⟨hfree, -⟩⟩
  · have hx := findSub_some hfind
    have hheld := held_update_some heq fun y hy ↦ by
      cases hx.symm.trans hy
      rfl
    have hnew := filterStats_snd_le hafter filter
    simp only [topicSubscribe, hfind, hp, true_and] at hheld hnew ⊢
    refine announces_subscribe hheld ?_ hlen fun _ ↦ ⟨i, holdsAt_iff.mpr ⟨_, hx, rfl⟩⟩
    split_ifs
    · exact hqos
    · exact hold
    · exact hnew
  · have hnone : t.sub i = none := sub_eq_none_iff.mpr (findFree_free hfree)
    have hheld := held_update_some heq fun y hy ↦ by cases hnone.symm.trans hy
    rw [htake] at hheld
    simp only [topicSubscribe, hfind, hfree, hp, true_and] at hheld ⊢
    refine announces_subscribe hheld ?_ hlen fun hnot ↦ ?_
    · split_ifs
      · exact hqos
      · exact hold
    · rw [held_iff_stats]
      omega
  · refine .inl ⟨?_, fun f ↦ ?_⟩ <;> simp [topicSubscribe, hfind, hfree]

theorem topicUnsubscribe_announces {c : κ} {filter : CStr}
    {r : TopicTable cfg κ × List Notify} (hrun : t.topicUnsubscribe c filter = some r) :
    t.Announces r.1 r.2 := by
  have hafter : r.1.Announceable := SubsAll.topicUnsubscribe h hrun
  rcases topicUnsubscribe_cases hrun with ⟨i, hfind, heq⟩ | ⟨-, rfl⟩
  · have hx := findSub_some hfind
    have hcount := filterStats_update_none heq hx
    have hnew := filterStats_snd_le hafter filter
    simp only [topicUnsubscribe, hfind] at hrun
    obtain ⟨t', -, hrun⟩ := Option.bind_eq_some_iff.mp hrun
    simp only [hp, if_true, Option.some.injEq] at hrun
    subst hrun
    dsimp only at hcount hnew heq ⊢
    refine announces_remove heq hx (h i _ hx).2 (fun hzero ↦ ?_) fun hpos ↦ ?_
    · dsimp only at hzero
      rw [if_pos (by omega)]
    · dsimp only at hpos
      rw [if_neg (by omega)]
      split_ifs
      · exact .inl rfl
      · exact .inr ⟨_, hnew, rfl⟩
      · exact .inl rfl
  · exact .inl ⟨rfl, fun _ ↦ Iff.rfl⟩

theorem unsubscribeSection_announces {c : κ} {r : TopicTable cfg κ × Option (List Notify)}
    (hrun : unsubscribeSection t c = some r) : t.Announces r.1 (r.2.getD []) := by
  have hafter : r.1.Announceable := SubsAll.removed h (unsubscribeSection_removed hrun).1
  unfold unsubscribeSection at hrun
  rw [if_pos hp] at hrun
  split at hrun
  · cases hrun
    exact .inl ⟨rfl, fun _ ↦ Iff.rfl⟩
  · next i hfind =>
      have huse := List.find?_some hfind
      simp only [Bool.and_eq_true, decide_eq_true_eq] at huse
      have hx : t.sub i = some ⟨c, (t.subs i).filter, (t.subs i).qos⟩ :=
        sub_eq_some_iff.mpr ⟨huse.1, huse.2, rfl, rfl⟩
      obtain ⟨t', hremove, hrun⟩ := Option.bind_eq_some_iff.mp hrun
      cases hrun
      have heq := sub_removeSlot hremove
      have hcount := filterStats_update_none heq hx
      have hnew := filterStats_snd_le hafter (t.subs i).filter
      dsimp only [Option.getD_some] at hcount hnew ⊢
      refine announces_remove heq hx (h i _ hx).2 (fun hzero ↦ ?_) fun hpos ↦ ?_
      · dsimp only at hzero
        rw [if_pos ⟨by omega, hzero⟩]
      · dsimp only at hpos
        rw [if_neg (by omega)]
        split_ifs
        · exact .inr ⟨_, hnew, rfl⟩
        · exact .inl rfl

end TopicTable

end MqttBroker
