import MqttBroker.Mesh.Advertise
import MqttBroker.Lib.Replay
import MqttBroker.Lib.RunningMax

/-!
# The announced QoS of a filter

`topic.c` announces the largest QoS over the clients that hold a filter.  It
does not count anew at each change, but in the cases where it must.
-/

namespace MqttBroker

open Replay RunningMax

variable {κ : Type} {cfg : Config}

/-- The QoS that a notification announces for its filter. -/
def Notify.qos : Notify → Option UInt8
  | .localSubscribe _ qos => some qos
  | .localUnsubscribe _ => none

/-- A notification sets what is announced of its filter. -/
def Notify.write (m : Notify) : Option (CStr × Option UInt8) := some (m.filter, m.qos)

/-- A filter that `topic_subscribe` stores whole: its callers take it from a buffer of
`MQTT_TOPIC_MAX` bytes. -/
def TopicOp.StoredWhole : TopicOp κ → Prop
  | .subscribe _ filter _ => filter.length < MQTT_TOPIC_MAX
  | _ => True

/-- The last notification about a filter. -/
def lastNotify (notes : List Notify) (f : CStr) : Option Notify :=
  (notes.filter fun m ↦ m.filter = f).getLast?

namespace TopicTable

/-- The QoS of the clients that hold a filter. -/
def holderQos (t : TopicTable cfg κ) (f : CStr) : Set ℕ :=
  {n | ∃ i, t.HoldsAt f i ∧ (t.subs i).qos.toNat = n}

/-- A filter that is held was last announced with the largest QoS of its holders, and another
was not, or last withdrawn. -/
structure Announced (t : TopicTable cfg κ) (notes : List Notify) (f : CStr) : Prop where
  held : t.Held f → ∃ q : UInt8, IsGreatest (t.holderQos f) q.toNat ∧
    lastNotify notes f = some (.localSubscribe f q)
  unheld : ¬ t.Held f → lastNotify notes f = none ∨ lastNotify notes f = some (.localUnsubscribe f)

/-! ## The largest QoS -/

/-- What `filter_stats_locked` finds out about a filter. -/
def level (t : TopicTable cfg κ) (f : CStr) : Option UInt8 :=
  if 0 < (t.filterStats f).1 then some (t.filterStats f).2 else none

section

variable {t t' : TopicTable cfg κ} {f : CStr} {q : UInt8}

theorem filterStats_snd (t : TopicTable cfg κ) (f : CStr) :
    (∀ i, t.HoldsAt f i → (t.subs i).qos ≤ (t.filterStats f).2) ∧
      ((t.filterStats f).2 = 0 ∨ ∃ i, t.HoldsAt f i ∧ (t.subs i).qos = (t.filterStats f).2) := by
  have hfold : ∀ (l : List (Slot cfg)) (r : ℕ × UInt8),
      let res := l.foldl (fun r i ↦
        if (t.subs i).inUse ∧ (t.subs i).filter = f then
          (r.1 + 1, if r.2 < (t.subs i).qos then (t.subs i).qos else r.2)
        else r) r
      r.2 ≤ res.2 ∧ (∀ i ∈ l, t.HoldsAt f i → (t.subs i).qos ≤ res.2) ∧
        (res.2 = r.2 ∨ ∃ i, t.HoldsAt f i ∧ (t.subs i).qos = res.2) := by
    intro l
    induction l with
    | nil => exact fun r ↦ ⟨UInt8.le_refl _, by simp, .inl rfl⟩
    | cons i l ih =>
        intro r
        dsimp only [List.foldl_cons]
        split_ifs with hi hlt
        · obtain ⟨hle, hall, hattained⟩ := ih (r.1 + 1, (t.subs i).qos)
          refine ⟨UInt8.le_trans (UInt8.le_of_lt hlt) hle, ?_, .inr ?_⟩
          · rintro j (_ | ⟨_, hj⟩) hholds
            · exact hle
            · exact hall j hj hholds
          · exact hattained.elim (fun h ↦ ⟨i, hi, h.symm⟩) id
        · obtain ⟨hle, hall, hattained⟩ := ih (r.1 + 1, r.2)
          refine ⟨hle, ?_, hattained⟩
          rintro j (_ | ⟨_, hj⟩) hholds
          · exact UInt8.le_trans (UInt8.not_lt.mp hlt) hle
          · exact hall j hj hholds
        · obtain ⟨hle, hall, hattained⟩ := ih r
          refine ⟨hle, ?_, hattained⟩
          rintro j (_ | ⟨_, hj⟩) hholds
          · exact absurd hholds hi
          · exact hall j hj hholds
  obtain ⟨-, hall, hattained⟩ := hfold (List.finRange cfg.topicMaxSubs) (0, 0)
  exact ⟨fun i ↦ hall i (List.mem_finRange i), hattained⟩

theorem filterStats_isGreatest (h : t.Held f) :
    IsGreatest (t.holderQos f) (t.filterStats f).2.toNat := by
  obtain ⟨hall, hattained⟩ := t.filterStats_snd f
  refine ⟨?_, ?_⟩
  · rcases hattained with hzero | ⟨i, hi, hq⟩
    · obtain ⟨i, hi⟩ := h
      have hle := UInt8.le_iff_toNat_le.mp (hall i hi)
      rw [hzero] at hle ⊢
      exact ⟨i, hi, Nat.le_zero.mp hle⟩
    · exact ⟨i, hi, congrArg UInt8.toNat hq⟩
  · rintro _ ⟨i, hi, rfl⟩
    exact UInt8.le_iff_toNat_le.mp (hall i hi)

theorem level_of_held (h : t.Held f) : t.level f = some (t.filterStats f).2 :=
  if_pos (held_iff_stats.mp h)

theorem level_of_not_held (h : ¬ t.Held f) : t.level f = none :=
  if_neg fun hpos ↦ h (held_iff_stats.mpr hpos)

theorem level_eq_some_iff : t.level f = some q ↔ IsGreatest (t.holderQos f) q.toNat := by
  by_cases h : t.Held f
  · rw [level_of_held h, Option.some.injEq]
    have hmax := filterStats_isGreatest h
    exact ⟨fun hq ↦ hq ▸ hmax, fun hq ↦ UInt8.toNat_inj.mp (hmax.unique hq)⟩
  · rw [level_of_not_held h]
    refine iff_of_false (by simp) ?_
    rintro ⟨⟨i, hi, -⟩, -⟩
    exact h ⟨i, hi⟩

theorem level_congr (h : t'.holderQos f = t.holderQos f) : t'.level f = t.level f := by
  ext q
  rw [level_eq_some_iff, level_eq_some_iff, h]

end

/-! ## One slot changes -/

section

variable {t t' : TopicTable cfg κ} {i : Slot cfg} {v : Option (Subscription κ)} {f : CStr}

/-- The QoS of the holders in the other slots. -/
def otherQos (t : TopicTable cfg κ) (f : CStr) (i : Slot cfg) : Set ℕ :=
  {n | ∃ j ≠ i, t.HoldsAt f j ∧ (t.subs j).qos.toNat = n}

theorem mem_holderQos {n : ℕ} : n ∈ t.holderQos f ↔
    ∃ j x, t.sub j = some x ∧ x.filter = f ∧ x.qos.toNat = n := by
  constructor
  · rintro ⟨j, ⟨huse, hfilter⟩, hq⟩
    exact ⟨j, ⟨_, _, _⟩, sub_eq_some_iff.mpr ⟨huse, rfl, rfl, rfl⟩, hfilter, hq⟩
  · rintro ⟨j, x, hx, hf, hq⟩
    obtain ⟨huse, -, hfilter, hqos⟩ := sub_eq_some_iff.mp hx
    exact ⟨j, ⟨huse, hfilter.trans hf⟩, by rw [hqos, hq]⟩

theorem mem_otherQos {n : ℕ} : n ∈ t.otherQos f i ↔
    ∃ j ≠ i, ∃ x, t.sub j = some x ∧ x.filter = f ∧ x.qos.toNat = n := by
  constructor
  · rintro ⟨j, hj, ⟨huse, hfilter⟩, hq⟩
    exact ⟨j, hj, ⟨_, _, _⟩, sub_eq_some_iff.mpr ⟨huse, rfl, rfl, rfl⟩, hfilter, hq⟩
  · rintro ⟨j, hj, x, hx, hf, hq⟩
    obtain ⟨huse, -, hfilter, hqos⟩ := sub_eq_some_iff.mp hx
    exact ⟨j, hj, ⟨huse, hfilter.trans hf⟩, by rw [hqos, hq]⟩

theorem holderQos_of_some {x : Subscription κ} (hx : t.sub i = some x) :
    t.holderQos x.filter = insert x.qos.toNat (t.otherQos x.filter i) := by
  ext n
  rw [Set.mem_insert_iff, mem_holderQos, mem_otherQos]
  constructor
  · rintro ⟨j, y, hy, hf, rfl⟩
    by_cases hj : j = i
    · subst hj
      cases hx.symm.trans hy
      exact .inl rfl
    · exact .inr ⟨j, hj, y, hy, hf, rfl⟩
  · rintro (rfl | ⟨j, -, y, hy, hf, rfl⟩)
    · exact ⟨i, x, hx, rfl, rfl⟩
    · exact ⟨j, y, hy, hf, rfl⟩

theorem holderQos_of_other (hne : ∀ x, t.sub i = some x → x.filter ≠ f) :
    t.holderQos f = t.otherQos f i := by
  ext n
  rw [mem_holderQos, mem_otherQos]
  constructor
  · rintro ⟨j, y, hy, hf, rfl⟩
    refine ⟨j, ?_, y, hy, hf, rfl⟩
    rintro rfl
    exact hne y hy hf
  · rintro ⟨j, -, y, hy, hf, rfl⟩
    exact ⟨j, y, hy, hf, rfl⟩

theorem otherQos_update (heq : t'.sub = Function.update t.sub i v) :
    t'.otherQos f i = t.otherQos f i := by
  ext n
  rw [mem_otherQos, mem_otherQos]
  refine exists_congr fun j ↦ and_congr_right fun hj ↦ ?_
  rw [heq, Function.update_of_ne hj]

/-- The slot is about another filter before and after the change. -/
theorem level_update_other (heq : t'.sub = Function.update t.sub i v)
    (hold : ∀ x, t.sub i = some x → x.filter ≠ f) (hnew : ∀ x, v = some x → x.filter ≠ f) :
    t'.level f = t.level f := by
  refine level_congr ?_
  have hnew' : ∀ x, t'.sub i = some x → x.filter ≠ f := by
    rw [heq, Function.update_self]
    exact hnew
  rw [holderQos_of_other hold, holderQos_of_other hnew', otherQos_update heq]

end

/-! ## Notifications as writes -/

/-- The notifications turn what was announced of `t` into what is to be announced of `t'`. -/
def Reports (t t' : TopicTable cfg κ) (notes : List Notify) : Prop :=
  (notes.map Notify.write).foldl Replay.apply t.level = t'.level

section

variable {t t' t'' : TopicTable cfg κ} {notes notes' : List Notify} {f : CStr}

theorem Reports.nil (h : ∀ g, t'.level g = t.level g) : t.Reports t' [] :=
  (funext h : t'.level = t.level).symm

theorem Reports.one {m : Notify} (hm : t'.level m.filter = m.qos)
    (hothers : ∀ g ≠ m.filter, t'.level g = t.level g) : t.Reports t' [m] := by
  funext g
  show Function.update t.level m.filter m.qos g = t'.level g
  by_cases hg : g = m.filter
  · rw [hg, Function.update_self, hm]
  · rw [Function.update_of_ne hg, hothers g hg]

theorem Reports.trans (h : t.Reports t' notes) (h' : t'.Reports t'' notes') :
    t.Reports t'' (notes ++ notes') := by
  unfold Reports at h h' ⊢
  rw [List.map_append, List.foldl_append, h, h']

/-- The new largest QoS is announced if it is new. -/
theorem Reports.localSubscribe {q : UInt8} {p : Prop} [Decidable p]
    (hlevel : t'.level f = some q) (hothers : ∀ g ≠ f, t'.level g = t.level g)
    (hnot : ¬ p → t.level f = some q) :
    t.Reports t' (if p then [.localSubscribe f q] else []) := by
  split_ifs with hp
  · exact .one hlevel hothers
  · refine .nil fun g ↦ ?_
    by_cases hg : g = f
    · rw [hg, hlevel, hnot hp]
    · exact hothers g hg

/-- Whoever was told everything knows what is to be announced. -/
theorem announced_of_replay (h : replay (notes.map Notify.write) = t.level) (f : CStr) :
    t.Announced notes f := by
  have hlast : (lastNotify notes f).bind Notify.qos = t.level f := by
    rw [← h]
    exact (replay_map_last Notify.filter Notify.qos notes f).symm
  have hfilter : ∀ m, lastNotify notes f = some m → m.filter = f := by
    intro m hm
    have hmem := List.mem_of_getLast? hm
    simpa using (List.mem_filter.mp hmem).2
  constructor
  · intro hheld
    refine ⟨(t.filterStats f).2, filterStats_isGreatest hheld, ?_⟩
    rw [level_of_held hheld] at hlast
    obtain ⟨m, hm, hq⟩ := Option.bind_eq_some_iff.mp hlast
    have hf := hfilter m hm
    rw [hm]
    cases m with
    | localSubscribe f' q =>
        obtain rfl : f' = f := hf
        obtain rfl : q = (t.filterStats f').2 := Option.some.inj hq
        rfl
    | localUnsubscribe f' => cases hq
  · intro hheld
    rw [level_of_not_held hheld] at hlast
    cases hm : lastNotify notes f with
    | none => exact .inl rfl
    | some m =>
        right
        rw [hm] at hlast
        rw [← hfilter m hm]
        cases m with
        | localSubscribe f' q => cases hlast
        | localUnsubscribe f' => rfl

end

/-! ## The three calls -/

section

variable [DecidableEq κ] {t : TopicTable cfg κ}

theorem topicSubscribe_reports (hp : cfg.p2pDynamic = true) (c : κ) {filter : CStr}
    (qos : UInt8) (hlen : filter.length < MQTT_TOPIC_MAX) :
    t.Reports (t.topicSubscribe c filter qos).1 (t.topicSubscribe c filter qos).2.2 := by
  have htake : filter.take (MQTT_TOPIC_MAX - 1) = filter :=
    List.take_of_length_le (by omega)
  rcases t.topicSubscribe_cases c filter qos with
    ⟨i, hfind, heq⟩ | ⟨hfind, ⟨i, hfree, heq⟩ | ⟨hfree, -⟩⟩
  · have hx := findSub_some hfind
    have hheld : t.Held filter := ⟨i, holdsAt_iff.mpr ⟨_, hx, rfl⟩⟩
    have hold := filterStats_isGreatest hheld
    rw [holderQos_of_some hx] at hold
    have hx' : (t.topicSubscribe c filter qos).1.sub i = some ⟨c, filter, qos⟩ := by
      rw [heq, Function.update_self]
    have hnew := holderQos_of_some hx'
    have hheld' : (t.topicSubscribe c filter qos).1.Held filter :=
      ⟨i, holdsAt_iff.mpr ⟨_, hx', rfl⟩⟩
    dsimp only at hnew hold
    rw [otherQos_update heq] at hnew
    have hothers : ∀ g ≠ filter, (t.topicSubscribe c filter qos).1.level g = t.level g := by
      intro g hg
      refine level_update_other heq (fun y hy ↦ ?_) (fun y hy ↦ ?_)
      · cases hx.symm.trans hy
        exact hg.symm
      · cases hy
        exact hg.symm
    have hlevel' := level_of_held hheld'
    have hlevel : (t.topicSubscribe c filter qos).1.level filter =
        some (if (t.filterStats filter).2 ≤ qos then qos
          else if (t.subs i).qos < (t.filterStats filter).2 then (t.filterStats filter).2
          else ((t.topicSubscribe c filter qos).1.filterStats filter).2) := by
      split_ifs with hraise hkeep
      · rw [level_eq_some_iff, hnew]
        exact isGreatest_raise hold (UInt8.le_iff_toNat_le.mp hraise)
      · rw [level_eq_some_iff, hnew]
        refine isGreatest_replace hold (UInt8.lt_iff_toNat_lt.mp hkeep) ?_
        rw [UInt8.le_iff_toNat_le] at hraise
        omega
      · exact hlevel'
    simp only [topicSubscribe, hfind, hp, true_and] at hlevel hothers ⊢
    refine .localSubscribe hlevel hothers fun hsame ↦ ?_
    rw [level_of_held hheld, not_not.mp hsame]
  · have hnone : t.sub i = none := sub_eq_none_iff.mpr (findFree_free hfree)
    rw [htake] at heq
    have hx' : (t.topicSubscribe c filter qos).1.sub i = some ⟨c, filter, qos⟩ := by
      rw [heq, Function.update_self]
    have hnew := holderQos_of_some hx'
    have hrest : t.holderQos filter = t.otherQos filter i :=
      holderQos_of_other fun y hy ↦ by cases hnone.symm.trans hy
    dsimp only at hnew
    rw [otherQos_update heq, ← hrest] at hnew
    have hothers : ∀ g ≠ filter, (t.topicSubscribe c filter qos).1.level g = t.level g := by
      intro g hg
      refine level_update_other heq (fun y hy ↦ ?_) (fun y hy ↦ ?_)
      · cases hnone.symm.trans hy
      · cases hy
        exact hg.symm
    have hlevel : (t.topicSubscribe c filter qos).1.level filter =
        some (if (t.filterStats filter).2 < qos then qos else (t.filterStats filter).2) := by
      rw [level_eq_some_iff, hnew]
      by_cases hheld : t.Held filter
      · have hadd := isGreatest_add (q := qos.toNat) (filterStats_isGreatest hheld)
        simp only [← UInt8.lt_iff_toNat_lt] at hadd
        split_ifs at hadd ⊢ <;> exact hadd
      · have hempty : t.holderQos filter = ∅ := by
          refine Set.eq_empty_of_forall_notMem ?_
          rintro n ⟨j, hj, -⟩
          exact hheld ⟨j, hj⟩
        have hzero : (t.filterStats filter).2 = 0 := by
          refine (t.filterStats_snd filter).2.resolve_right ?_
          rintro ⟨j, hj, -⟩
          exact hheld ⟨j, hj⟩
        have hmax : (if (0 : UInt8) < qos then qos else 0) = qos := by
          split_ifs with hpos
          · rfl
          · exact (UInt8.le_zero_iff.mp (UInt8.not_lt.mp hpos)).symm
        rw [hempty, hzero, hmax]
        simp
    simp only [topicSubscribe, hfind, hfree, hp, true_and] at hlevel hothers ⊢
    refine .localSubscribe hlevel hothers fun hsame ↦ ?_
    obtain ⟨hcount, hsame⟩ := not_or.mp hsame
    rw [level, if_pos (Nat.pos_of_ne_zero hcount), not_not.mp hsame]
  · have hsame : t.topicSubscribe c filter qos = (t, -1, []) := by
      simp [topicSubscribe, hfind, hfree]
    rw [hsame]
    exact .nil fun _ ↦ rfl

omit [DecidableEq κ] in
/-- A slot is freed: its filter is withdrawn with its last holder, and otherwise announced anew
if the largest QoS is another one. -/
theorem reports_remove {t' : TopicTable cfg κ} {i : Slot cfg} {x : Subscription κ}
    {notes : List Notify} (heq : t'.sub = Function.update t.sub i none) (hx : t.sub i = some x)
    (hlast : (t'.filterStats x.filter).1 = 0 → notes = [.localUnsubscribe x.filter])
    (hmore : 0 < (t'.filterStats x.filter).1 → notes =
      if (t'.filterStats x.filter).2 ≠ (t.filterStats x.filter).2 then
        [.localSubscribe x.filter (t'.filterStats x.filter).2] else []) : t.Reports t' notes := by
  have hothers : ∀ g ≠ x.filter, t'.level g = t.level g := by
    intro g hg
    refine level_update_other heq (fun y hy ↦ ?_) nofun
    cases hx.symm.trans hy
    exact hg.symm
  rcases Nat.eq_zero_or_pos (t'.filterStats x.filter).1 with hzero | hpos
  · rw [hlast hzero]
    refine .one ?_ hothers
    exact if_neg (by simp [Notify.filter, hzero])
  · rw [hmore hpos]
    refine .localSubscribe (if_pos hpos) hothers fun hsame ↦ ?_
    rw [level_of_held ⟨i, holdsAt_iff.mpr ⟨x, hx, rfl⟩⟩, not_not.mp hsame]

theorem topicUnsubscribe_reports (hp : cfg.p2pDynamic = true) {c : κ} {filter : CStr}
    {r : TopicTable cfg κ × List Notify} (hrun : t.topicUnsubscribe c filter = some r) :
    t.Reports r.1 r.2 := by
  rcases topicUnsubscribe_cases hrun with ⟨i, hfind, heq⟩ | ⟨-, rfl⟩
  · have hx := findSub_some hfind
    have hcount := filterStats_update_none heq hx
    have hheld : t.Held filter := ⟨i, holdsAt_iff.mpr ⟨_, hx, rfl⟩⟩
    have hold := filterStats_isGreatest hheld
    rw [holderQos_of_some hx] at hold
    have hnew : r.1.holderQos filter = t.otherQos filter i := by
      rw [← otherQos_update heq]
      refine holderQos_of_other fun y hy ↦ ?_
      rw [heq, Function.update_self] at hy
      cases hy
    simp only [topicUnsubscribe, hfind] at hrun
    obtain ⟨t', -, hrun⟩ := Option.bind_eq_some_iff.mp hrun
    simp only [hp, if_true, Option.some.injEq] at hrun
    subst hrun
    dsimp only at hcount heq hnew hold ⊢
    refine reports_remove heq hx (fun hzero ↦ ?_) fun hpos ↦ ?_
    · dsimp only at hzero
      rw [if_pos (by omega)]
    · dsimp only at hpos ⊢
      rw [if_neg (by omega)]
      split_ifs with hkeep hsame
      · have hmax := isGreatest_remove hold (UInt8.lt_iff_toNat_lt.mp hkeep)
        rw [← hnew] at hmax
        have hnow := filterStats_isGreatest (held_iff_stats.mpr hpos)
        exact absurd (UInt8.toNat_inj.mp (hnow.unique hmax)) hsame
      all_goals rfl
  · exact .nil fun _ ↦ rfl

theorem unsubscribeSection_reports (hp : cfg.p2pDynamic = true) {c : κ}
    {r : TopicTable cfg κ × Option (List Notify)} (hrun : unsubscribeSection t c = some r) :
    t.Reports r.1 (r.2.getD []) := by
  unfold unsubscribeSection at hrun
  rw [if_pos hp] at hrun
  split at hrun
  · cases hrun
    exact .nil fun _ ↦ rfl
  · next i hfind =>
      have huse := List.find?_some hfind
      simp only [Bool.and_eq_true, decide_eq_true_eq] at huse
      have hx : t.sub i = some ⟨c, (t.subs i).filter, (t.subs i).qos⟩ :=
        sub_eq_some_iff.mpr ⟨huse.1, huse.2, rfl, rfl⟩
      obtain ⟨t', hremove, hrun⟩ := Option.bind_eq_some_iff.mp hrun
      cases hrun
      have heq := sub_removeSlot hremove
      have hcount := filterStats_update_none heq hx
      dsimp only [Option.getD_some] at hcount ⊢
      refine reports_remove heq hx (fun hzero ↦ ?_) fun hpos ↦ ?_
      · dsimp only at hzero
        rw [if_pos ⟨by omega, hzero⟩]
      · dsimp only at hpos ⊢
        rw [if_neg (by omega)]
        simp only [hpos, true_and]

theorem unsubscribeRounds_reports (hp : cfg.p2pDynamic = true) {c : κ} {k : ℕ}
    {r : TopicTable cfg κ × List Notify} (hrun : unsubscribeRounds c k t = some r) :
    t.Reports r.1 r.2 := by
  induction k generalizing t r with
  | zero => cases hrun
  | succ k ih =>
      rw [unsubscribeRounds_succ hp] at hrun
      obtain ⟨⟨t', notes⟩, hsection, hrun⟩ := Option.bind_eq_some_iff.mp hrun
      have hreports := unsubscribeSection_reports hp hsection
      cases notes with
      | none =>
          cases hrun
          exact hreports
      | some notes =>
          obtain ⟨s, hrest, rfl⟩ := Option.map_eq_some_iff.mp hrun
          exact hreports.trans (ih hrest)

/-! ## Runs -/

theorem call_reports (hp : cfg.p2pDynamic = true) {op : TopicOp κ} (hop : op.StoredWhole)
    {r : TopicTable cfg κ × List Notify} (hrun : t.call op = some r) : t.Reports r.1 r.2 := by
  cases op with
  | subscribe c filter qos =>
      cases hrun
      exact topicSubscribe_reports hp c qos hop
  | unsubscribe c filter => exact topicUnsubscribe_reports hp hrun
  | unsubscribeAll c =>
      rw [TopicTable.call, topicUnsubscribeAll, if_pos hp] at hrun
      exact unsubscribeRounds_reports hp hrun

theorem IsLinked.call (h : t.IsLinked) (op : TopicOp κ) :
    ∃ r, t.call op = some r ∧ r.1.IsLinked := by
  cases op with
  | subscribe c filter qos => exact ⟨_, rfl, h.topicSubscribe c filter qos⟩
  | unsubscribe c filter => exact h.topicUnsubscribe c filter
  | unsubscribeAll c => exact h.topicUnsubscribeAll c

/-- A sequence of calls, with the notifications of each after those of the ones before. -/
def calls (r : TopicTable cfg κ × List Notify) (ops : List (TopicOp κ)) :
    Option (TopicTable cfg κ × List Notify) :=
  ops.foldlM (fun r op ↦ (r.1.call op).map fun r' ↦ (r'.1, r.2 ++ r'.2)) r

theorem calls_reports (hp : cfg.p2pDynamic = true) {ops : List (TopicOp κ)}
    (hops : ∀ op ∈ ops, op.StoredWhole) {notes : List Notify} (h : t.IsLinked)
    (hnotes : replay (notes.map Notify.write) = t.level) :
    ∃ r, calls (t, notes) ops = some r ∧ replay (r.2.map Notify.write) = r.1.level := by
  induction ops generalizing t notes with
  | nil => exact ⟨(t, notes), rfl, hnotes⟩
  | cons op ops ih =>
      obtain ⟨r, hcall, hlinked⟩ := h.call op
      have hreports := call_reports hp (hops op List.mem_cons_self) hcall
      have hnotes' : replay ((notes ++ r.2).map Notify.write) = r.1.level := by
        rw [List.map_append, replay_append, hnotes, hreports]
      obtain ⟨r', hrun, hr'⟩ :=
        ih (fun op hop ↦ hops op (List.mem_cons_of_mem _ hop)) hlinked hnotes'
      exact ⟨r', by simpa [calls, hcall] using hrun, hr'⟩

end

end TopicTable

/-- After every sequence of calls since `topic_init`, each filter was last announced with the
largest QoS of its holders. -/
theorem announced_max_qos [DecidableEq κ] [Inhabited κ] (hp : cfg.p2pDynamic = true)
    (ops : List (TopicOp κ)) (hops : ∀ op ∈ ops, op.StoredWhole) :
    ∃ t notes, TopicTable.calls (topicInit cfg κ, []) ops = some (t, notes) ∧
      ∀ f, t.Announced notes f := by
  have hinit : replay ([].map Notify.write) = (topicInit cfg κ).level := by
    funext f
    exact (TopicTable.level_of_not_held (fun ⟨_, huse, _⟩ ↦ nomatch huse)).symm
  obtain ⟨r, hrun, hr⟩ := TopicTable.calls_reports hp hops TopicTable.isLinked_init hinit
  exact ⟨r.1, r.2, hrun, TopicTable.announced_of_replay hr⟩

/-- The holder of the largest QoS lets go of the filter, and the other one's is announced. -/
theorem announced_max_qos_lowered :
    ((TopicTable.calls (topicInit Config.posix ℕ, [])
      [.subscribe 1 [97] 2, .subscribe 2 [97] 1, .unsubscribe 1 [97]]).map Prod.snd =
        some [.localSubscribe [97] 2, .localSubscribe [97] 1]) ∧
    ∃ t notes, TopicTable.calls (topicInit Config.posix ℕ, [])
      [.subscribe 1 [97] 2, .subscribe 2 [97] 1, .unsubscribe 1 [97]] = some (t, notes) ∧
      ∀ f, t.Announced notes f :=
  ⟨by decide +kernel, announced_max_qos rfl _ (by simp [TopicOp.StoredWhole, MQTT_TOPIC_MAX])⟩

end MqttBroker
