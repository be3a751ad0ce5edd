import MqttBroker.PublishFrame
import MqttBroker.Topic.Lists

/-!
# The return codes of a SUBACK

`handle_subscribe` takes the filters of a packet one after another, and each may
fill the table for the next.  The codes are compared with the table that comes
out of it.
-/

namespace MqttBroker

variable {cfg : Config} {κ : Type}

namespace TopicTable

/-- Client `c` has the filter in one slot, with this QoS. -/
def HoldsOnce (t : TopicTable cfg κ) (c : κ) (f : CStr) (q : UInt8) : Prop :=
  ∃ i, t.sub i = some ⟨c, f, q⟩ ∧ ∀ j q', t.sub j = some ⟨c, f, q'⟩ → j = i

/-- Client `c` has the filter already, or a slot is free. -/
def RoomFor (t : TopicTable cfg κ) (c : κ) (f : CStr) : Prop :=
  (∃ i q, t.sub i = some ⟨c, f, q⟩) ∨ ∃ i, t.sub i = none

end TopicTable

/-- The QoS with which a filter is asked for last. -/
def lastQos (topics : List (CStr × UInt8)) (f : CStr) : Option UInt8 :=
  (topics.filter fun e ↦ e.1 = f).getLast?.map Prod.snd

theorem lastQos_cons_same (f : CStr) (q : UInt8) (es : List (CStr × UInt8)) :
    lastQos ((f, q) :: es) f = some ((lastQos es f).getD q) := by
  rw [lastQos, List.filter_cons_of_pos (by simp), List.getLast?_cons, lastQos]
  cases (es.filter fun e ↦ e.1 = f).getLast? with
  | none => rfl
  | some e => rfl

theorem lastQos_cons_other {f g : CStr} (h : g ≠ f) (q : UInt8) (es : List (CStr × UInt8)) :
    lastQos ((g, q) :: es) f = lastQos es f := by
  rw [lastQos, List.filter_cons_of_neg (by simpa using h), lastQos]

/-! ## One filter -/

/-- What one round does to the table, with its code. -/
inductive Turn (me : κ) (t : TopicTable cfg κ) (f : CStr) (q : UInt8) :
    UInt8 → TopicTable cfg κ → Prop where
  | accepted {t' : TopicTable cfg κ} (i : Slot cfg) (hvalid : topicFilterValid f = true)
      (hslot : (∃ q', t.sub i = some ⟨me, f, q'⟩) ∨
        t.sub i = none ∧ ∀ j q', t.sub j ≠ some ⟨me, f, q'⟩)
      (hsub : t'.sub = Function.update t.sub i (some ⟨me, f, q⟩)) : Turn me t f q q t'
  | refused (h : ¬ topicFilterValid f = true ∨ ¬ t.RoomFor me f) : Turn me t f q 0x80 t

namespace Turn

variable {me : κ} {t t' : TopicTable cfg κ} {f : CStr} {q code : UInt8}

theorem code_iff (h : Turn me t f q code t') (hq : q ≤ 2) :
    (code = 0x80 ↔ ¬ topicFilterValid f = true ∨ ¬ t.RoomFor me f) ∧ (code ≠ 0x80 → code = q) := by
  cases h with
  | accepted i hvalid hslot hsub =>
      have hroom : t.RoomFor me f := by
        rcases hslot with ⟨q', hq'⟩ | ⟨hfree, -⟩
        · exact .inl ⟨i, q', hq'⟩
        · exact .inr ⟨i, hfree⟩
      have hne : q ≠ 0x80 := by
        rintro rfl
        exact absurd hq (by decide)
      refine ⟨iff_of_false hne ?_, fun _ ↦ rfl⟩
      rintro (hbad | hbad)
      · exact hbad hvalid
      · exact hbad hroom
  | refused hbad => exact ⟨iff_of_true rfl hbad, fun hne ↦ absurd rfl hne⟩

theorem sameFor (h : Turn me t f q code t') {c : κ} (hc : c ≠ me) : t.SameFor t' c := by
  cases h with
  | accepted i hvalid hslot hsub =>
      refine TopicTable.sameFor_update hsub (fun x hx ↦ ?_) fun x hx ↦ ?_
      · rcases hslot with ⟨q', hq'⟩ | ⟨hfree, -⟩
        · rw [hq'] at hx
          exact Option.some.inj hx ▸ hc.symm
        · rw [hfree] at hx
          cases hx
      · exact Option.some.inj hx ▸ hc.symm
  | refused => exact .refl t c

/-- A filter that is held can be taken again. -/
theorem accepted_of_holds (h : Turn me t f q code t') (hvalid : topicFilterValid f = true)
    {q' : UInt8} (hholds : t.HoldsOnce me f q') : t'.HoldsOnce me f q := by
  obtain ⟨i, hi, honce⟩ := hholds
  cases h with
  | accepted j _ hslot hsub =>
      obtain rfl : j = i := by
        rcases hslot with ⟨q'', hj⟩ | ⟨-, hnew⟩
        · exact honce j q'' hj
        · exact absurd hi (hnew i q')
      refine ⟨j, by rw [hsub, Function.update_self], fun k q'' hk ↦ ?_⟩
      by_contra hne
      rw [hsub, Function.update_of_ne hne] at hk
      exact hne (honce k q'' hk)
  | refused hbad =>
      rcases hbad with hbad | hbad
      · exact absurd hvalid hbad
      · exact absurd (.inl ⟨i, q', hi⟩) hbad

/-- Another filter stays as it is. -/
theorem other (h : Turn me t f q code t') {g : CStr} (hne : g ≠ f) (j : Slot cfg) (q' : UInt8) :
    t'.sub j = some ⟨me, g, q'⟩ ↔ t.sub j = some ⟨me, g, q'⟩ := by
  cases h with
  | accepted i hvalid hslot hsub =>
      rw [hsub]
      by_cases hj : j = i
      · subst hj
        rw [Function.update_self]
        refine iff_of_false (by simp [Ne.symm hne]) fun hold ↦ ?_
        rcases hslot with ⟨q'', hj⟩ | ⟨hfree, -⟩
        · rw [hj] at hold
          exact hne (congrArg Subscription.filter (Option.some.inj hold)).symm
        · rw [hfree] at hold
          cases hold
      · rw [Function.update_of_ne hj]
  | refused => exact Iff.rfl

theorem ne_refused (h : Turn me t f q code t') (hq : q ≤ 2) (hcode : code = 0x80) : t' = t := by
  cases h with
  | accepted i hvalid hslot hsub =>
      rw [hcode] at hq
      exact absurd hq (by decide)
  | refused => rfl

theorem distinct (h : Turn me t f q code t') (hlen : f.length < MQTT_TOPIC_MAX)
    (ht : t.Distinct) : t'.Distinct := by
  cases h with
  | accepted i hvalid hslot hsub =>
      refine ht.update hsub hlen ?_
      rintro j ⟨c, g, q'⟩ hj hy hclient hfilter
      obtain ⟨rfl, rfl⟩ : c = me ∧ g = f := ⟨hclient, hfilter⟩
      rcases hslot with ⟨q'', hi⟩ | ⟨-, hnew⟩
      · exact hj (ht.once j i _ _ hy hi rfl rfl)
      · exact hnew j q' hy
  | refused => exact ht

theorem holdsOnce (h : Turn me t f q code t') (hcode : code ≠ 0x80)
    (hlen : f.length < MQTT_TOPIC_MAX) (ht : t.Distinct) :
    topicFilterValid f = true ∧ t'.HoldsOnce me f q := by
  have ht' := h.distinct hlen ht
  cases h with
  | accepted i hvalid hslot hsub =>
      have hi : t'.sub i = some ⟨me, f, q⟩ := by rw [hsub, Function.update_self]
      exact ⟨hvalid, i, hi, fun j q' hj ↦ ht'.once j i _ _ hj hi rfl rfl⟩
  | refused => exact absurd rfl hcode

end Turn

section Tables

variable [DecidableEq κ]

/-- The first loop of `handle_subscribe`: the table, the codes and the notifications. -/
def subscribeAll (me : κ) (t : TopicTable cfg κ) (topics : List (CStr × UInt8)) :
    TopicTable cfg κ × Bytes × List Notify := topics.foldl (subscribeOne me) (t, [], [])

/-- The table when it is the turn of filter `i`. -/
def tableAtTurn (me : κ) (t : TopicTable cfg κ) (topics : List (CStr × UInt8)) (i : ℕ) :
    TopicTable cfg κ := (subscribeAll me t (topics.take i)).1

/-- The codes of a SUBACK say what was done with the filters: `t` is the table before, and
`t'` after. -/
structure CodesAgree (me : κ) (t t' : TopicTable cfg κ) (topics : List (CStr × UInt8))
    (codes : Bytes) : Prop where
  length : codes.length = topics.length
  code : ∀ (i : ℕ) f q, topics[i]? = some (f, q) → ∃ code, codes[i]? = some code ∧
    (code = 0x80 ↔ ¬ topicFilterValid f = true ∨ ¬ (tableAtTurn me t topics i).RoomFor me f) ∧
    (code ≠ 0x80 → code = q)
  accepted : ∀ (i : ℕ) f q code, topics[i]? = some (f, q) → codes[i]? = some code → code ≠ 0x80 →
    ∃ last, lastQos topics f = some last ∧ t'.HoldsOnce me f last
  refused : ∀ f, (∀ (i : ℕ) q, topics[i]? = some (f, q) → codes[i]? = some 0x80) →
    ∀ j q, t'.sub j = some ⟨me, f, q⟩ ↔ t.sub j = some ⟨me, f, q⟩
  others : ∀ c, c ≠ me → t.SameFor t' c

/-- A round of the loop: the table, the code and the notifications. -/
def takeFilter (me : κ) (t : TopicTable cfg κ) (e : CStr × UInt8) :
    TopicTable cfg κ × UInt8 × List Notify :=
  if 2 < e.2 ∨ !topicFilterValid e.1 then (t, 0x80, [])
  else
    let (t, rc, n) := t.topicSubscribe me e.1 e.2
    (t, if rc = 0 then e.2 else 0x80, n)

theorem subscribeOne_eq (me : κ) (r : TopicTable cfg κ × Bytes × List Notify)
    (e : CStr × UInt8) : subscribeOne me r e = ((takeFilter me r.1 e).1,
      r.2.1 ++ [(takeFilter me r.1 e).2.1], r.2.2 ++ (takeFilter me r.1 e).2.2) := by
  unfold subscribeOne takeFilter
  split_ifs
  · rw [List.append_nil]
  · rfl

theorem takeFilter_turn (me : κ) (t : TopicTable cfg κ) {f : CStr} {q : UInt8}
    (hlen : f.length < MQTT_TOPIC_MAX) (hq : q ≤ 2) :
    Turn me t f q (takeFilter me t (f, q)).2.1 (takeFilter me t (f, q)).1 := by
  have htake : f.take (MQTT_TOPIC_MAX - 1) = f := List.take_of_length_le (by omega)
  by_cases hvalid : topicFilterValid f = true
  · have hgood : ¬ (2 < q ∨ (!topicFilterValid f) = true) := by
      simp [UInt8.not_lt.mpr hq, hvalid]
    rw [takeFilter, if_neg hgood]
    rcases t.topicSubscribe_cases me f q with
      ⟨i, hfind, heq⟩ | ⟨hnone, ⟨i, hfree, heq⟩ | ⟨hfull, -⟩⟩
    · have hrc : (t.topicSubscribe me f q).2.1 = 0 := by
        simp only [TopicTable.topicSubscribe, hfind]
      dsimp only
      rw [if_pos hrc]
      exact .accepted i hvalid (.inl ⟨_, TopicTable.findSub_some hfind⟩) heq
    · have hrc : (t.topicSubscribe me f q).2.1 = 0 := by
        simp only [TopicTable.topicSubscribe, hnone, hfree]
      dsimp only
      rw [if_pos hrc]
      rw [htake] at heq
      refine .accepted i hvalid (.inr ⟨?_, fun j q ↦ TopicTable.findSub_none hnone j q⟩) heq
      exact TopicTable.sub_eq_none_iff.mpr (TopicTable.findFree_free hfree)
    · have hres : t.topicSubscribe me f q = (t, -1, []) := by
        simp only [TopicTable.topicSubscribe, hnone, hfull]
      rw [hres]
      refine .refused (.inr ?_)
      rintro (⟨j, q', hj⟩ | ⟨j, hj⟩)
      · exact TopicTable.findSub_none hnone j q' hj
      · exact TopicTable.findFree_none hfull j hj
  · have hbad : 2 < q ∨ (!topicFilterValid f) = true := .inr (by simp [hvalid])
    rw [takeFilter, if_pos hbad]
    exact .refused (.inl hvalid)

/-! ## All filters -/

/-- The codes of the filters. -/
def codesOf (me : κ) : TopicTable cfg κ → List (CStr × UInt8) → Bytes
  | _, [] => []
  | t, e :: es => (takeFilter me t e).2.1 :: codesOf me (takeFilter me t e).1 es

def tableAfter (me : κ) (t : TopicTable cfg κ) (topics : List (CStr × UInt8)) :
    TopicTable cfg κ := topics.foldl (fun t e ↦ (takeFilter me t e).1) t

theorem foldl_subscribeOne (me : κ) (topics : List (CStr × UInt8))
    (r : TopicTable cfg κ × Bytes × List Notify) : ∃ notes, topics.foldl (subscribeOne me) r =
      (tableAfter me r.1 topics, r.2.1 ++ codesOf me r.1 topics, r.2.2 ++ notes) := by
  induction topics generalizing r with
  | nil => exact ⟨[], by simp [tableAfter, codesOf]⟩
  | cons e es ih =>
      obtain ⟨notes, hnotes⟩ := ih (subscribeOne me r e)
      refine ⟨(takeFilter me r.1 e).2.2 ++ notes, ?_⟩
      rw [List.foldl_cons, hnotes, subscribeOne_eq]
      simp [tableAfter, codesOf]

theorem subscribeAll_eq (me : κ) (t : TopicTable cfg κ) (topics : List (CStr × UInt8)) :
    ∃ notes, subscribeAll me t topics = (tableAfter me t topics, codesOf me t topics, notes) :=
  foldl_subscribeOne me topics (t, [], [])

theorem tableAtTurn_eq (me : κ) (t : TopicTable cfg κ) (topics : List (CStr × UInt8)) (i : ℕ) :
    tableAtTurn me t topics i = tableAfter me t (topics.take i) := by
  obtain ⟨notes, hall⟩ := subscribeAll_eq me t (topics.take i)
  rw [tableAtTurn, hall]

section Run

variable {me : κ} {t : TopicTable cfg κ} {topics : List (CStr × UInt8)}

theorem length_codesOf : (codesOf me t topics).length = topics.length := by
  induction topics generalizing t with
  | nil => rfl
  | cons e es ih => rw [codesOf, List.length_cons, List.length_cons, ih]

theorem codesOf_get (hfits : ∀ e ∈ topics, e.1.length < MQTT_TOPIC_MAX ∧ e.2 ≤ 2) {i : ℕ} {f : CStr}
    {q : UInt8} (hi : topics[i]? = some (f, q)) : ∃ code, (codesOf me t topics)[i]? = some code ∧
      Turn me (tableAfter me t (topics.take i)) f q code (tableAfter me t (topics.take (i + 1))) := by
  induction topics generalizing t i with
  | nil => cases hi
  | cons e es ih =>
      cases i with
      | zero =>
          obtain rfl : e = (f, q) := Option.some.inj hi
          obtain ⟨hlen, hq⟩ := hfits _ List.mem_cons_self
          exact ⟨_, rfl, takeFilter_turn me t hlen hq⟩
      | succ i => exact ih (fun e he ↦ hfits e (List.mem_cons_of_mem _ he)) hi

theorem tableAfter_sameFor (hfits : ∀ e ∈ topics, e.1.length < MQTT_TOPIC_MAX ∧ e.2 ≤ 2) {c : κ}
    (hc : c ≠ me) : t.SameFor (tableAfter me t topics) c := by
  induction topics generalizing t with
  | nil => exact .refl t c
  | cons e es ih =>
      obtain ⟨hlen, hq⟩ := hfits _ List.mem_cons_self
      exact ((takeFilter_turn me t hlen hq).sameFor hc).trans
        (ih fun e he ↦ hfits e (List.mem_cons_of_mem _ he))

theorem tableAfter_refused (hfits : ∀ e ∈ topics, e.1.length < MQTT_TOPIC_MAX ∧ e.2 ≤ 2) {f : CStr}
    (hcodes : ∀ (i : ℕ) q, topics[i]? = some (f, q) → (codesOf me t topics)[i]? = some 0x80)
    (j : Slot cfg) (q : UInt8) :
    (tableAfter me t topics).sub j = some ⟨me, f, q⟩ ↔ t.sub j = some ⟨me, f, q⟩ := by
  induction topics generalizing t with
  | nil => exact Iff.rfl
  | cons e es ih =>
      obtain ⟨g, q'⟩ := e
      obtain ⟨hlen, hq⟩ := hfits _ List.mem_cons_self
      have hturn := takeFilter_turn me t hlen hq
      refine (ih (fun e he ↦ hfits e (List.mem_cons_of_mem _ he))
        fun i q hi ↦ hcodes (i + 1) q hi).trans ?_
      by_cases hg : f = g
      · subst hg
        have hzero := Option.some.inj (hcodes 0 q' rfl)
        rw [hturn.ne_refused hq hzero]
      · exact hturn.other hg j q

/-- A filter that the client has is asked for again. -/
theorem tableAfter_holds (hfits : ∀ e ∈ topics, e.1.length < MQTT_TOPIC_MAX ∧ e.2 ≤ 2) {f : CStr}
    (hvalid : topicFilterValid f = true) {q : UInt8} (hholds : t.HoldsOnce me f q) :
    (tableAfter me t topics).HoldsOnce me f ((lastQos topics f).getD q) := by
  induction topics generalizing t q with
  | nil => exact hholds
  | cons e es ih =>
      obtain ⟨g, q'⟩ := e
      obtain ⟨hlen, hq⟩ := hfits _ List.mem_cons_self
      have hturn := takeFilter_turn me t hlen hq
      have hes := fun e he ↦ hfits e (List.mem_cons_of_mem _ he)
      by_cases hg : g = f
      · subst hg
        rw [lastQos_cons_same, Option.getD_some]
        exact ih hes (hturn.accepted_of_holds hvalid hholds)
      · rw [lastQos_cons_other hg]
        obtain ⟨i, hi, honce⟩ := hholds
        refine ih hes ⟨i, (hturn.other (Ne.symm hg) i q).mpr hi, fun j q'' hj ↦ ?_⟩
        exact honce j q'' ((hturn.other (Ne.symm hg) j q'').mp hj)

theorem tableAfter_accepted (hfits : ∀ e ∈ topics, e.1.length < MQTT_TOPIC_MAX ∧ e.2 ≤ 2)
    (ht : t.Distinct) {i : ℕ} {f : CStr} {q code : UInt8} (hi : topics[i]? = some (f, q))
    (hcode : (codesOf me t topics)[i]? = some code) (hne : code ≠ 0x80) :
    ∃ last, lastQos topics f = some last ∧ (tableAfter me t topics).HoldsOnce me f last := by
  induction topics generalizing t i with
  | nil => cases hi
  | cons e es ih =>
      obtain ⟨g, q'⟩ := e
      obtain ⟨hlen, hq⟩ := hfits _ List.mem_cons_self
      have hturn := takeFilter_turn me t hlen hq
      have hes := fun e he ↦ hfits e (List.mem_cons_of_mem _ he)
      cases i with
      | zero =>
          cases hi
          obtain rfl := Option.some.inj hcode
          obtain ⟨hvalid, hholds⟩ := hturn.holdsOnce hne hlen ht
          exact ⟨_, lastQos_cons_same f q es, tableAfter_holds hes hvalid hholds⟩
      | succ i =>
          obtain ⟨last, hlast, hholds⟩ := ih hes (hturn.distinct hlen ht) hi hcode
          by_cases hg : g = f
          · subst hg
            exact ⟨last, by rw [lastQos_cons_same, hlast, Option.getD_some], hholds⟩
          · exact ⟨last, by rw [lastQos_cons_other hg, hlast], hholds⟩

theorem codesAgree (hfits : ∀ e ∈ topics, e.1.length < MQTT_TOPIC_MAX ∧ e.2 ≤ 2)
    (ht : t.Distinct) :
    CodesAgree me t (tableAfter me t topics) topics (codesOf me t topics) where
  length := length_codesOf
  code i f q hi := by
    obtain ⟨code, hcode, hturn⟩ := codesOf_get (t := t) hfits hi
    rw [tableAtTurn_eq]
    exact ⟨code, hcode, hturn.code_iff (hfits _ (List.mem_of_getElem? hi)).2⟩
  accepted _ _ _ _ hi hcode hne := tableAfter_accepted hfits ht hi hcode hne
  refused _ hcodes j q := tableAfter_refused hfits hcodes j q
  others _ hc := tableAfter_sameFor hfits hc

end Run

/-! ## The frames -/

/-- The SUBACK frames among what a handler sends. -/
def subacks (log : List (Output cfg κ)) : List Bytes :=
  log.filterMap fun
    | .reply frame => if frame.head? = some PacketType.suback then some frame else none
    | _ => none

omit [DecidableEq κ] in
theorem subacks_append (log log' : List (Output cfg κ)) :
    subacks (log ++ log') = subacks log ++ subacks log' := List.filterMap_append

omit [DecidableEq κ] in
theorem subacks_notify (notes : List Notify) :
    subacks (notes.map fun n ↦ (.notify n : Output cfg κ)) = [] := by
  rw [subacks, List.filterMap_map]
  exact List.filterMap_eq_nil_iff.mpr fun _ _ ↦ rfl

theorem publishHeader_ne_suback (pub : MqttPublish) : publishHeader pub ≠ PacketType.suback := by
  intro h
  have hbit := publishHeader_and (m := 0x20) rfl pub
  rw [h] at hbit
  exact absurd hbit (by decide)

theorem deliverRetained_built (retains : RetainStore) (c : Client) (filter : CStr) (qos : UInt8)
    (now : ℤ) (sendOk : Bool) : ∀ frame ∈ (topicDeliverRetained retains c filter qos now sendOk).2,
      ∃ pub, packetBuildPublish pub (MQTT_MAX_PACKET_SIZE + 8) = some frame := by
  have hfold : ∀ (l : List RetainEntry) (r : Client × List (MqttPublish × Bytes)),
      (∀ p ∈ r.2, packetBuildPublish p.1 (MQTT_MAX_PACKET_SIZE + 8) = some p.2) →
      ∀ p ∈ (l.foldl (collectRetained filter qos) r).2,
        packetBuildPublish p.1 (MQTT_MAX_PACKET_SIZE + 8) = some p.2 := by
    intro l
    induction l with
    | nil => exact fun _ hr ↦ hr
    | cons e l ih =>
        intro r hr
        refine ih _ fun p hp ↦ ?_
        unfold collectRetained at hp
        split_ifs at hp
        · exact hr p hp
        · dsimp only at hp
          split at hp
          · next buf hbuild =>
              rcases List.mem_append.mp hp with hp | hp
              · exact hr p hp
              · rw [List.mem_singleton.mp hp]
                exact hbuild
          · exact hr p hp
  intro frame hframe
  cases retains with
  | none => cases hframe
  | some r =>
      obtain ⟨p, hp, rfl⟩ := List.mem_map.mp hframe
      exact ⟨p.1, hfold ((List.finRange TOPIC_RETAIN_MAX).map r) (c, []) (by simp) p hp⟩

/-- The second loop of `handle_subscribe` leaves the table as it is and sends no SUBACK. -/
theorem retainedAll_frame (env : Env κ) (me : κ) (es : List ((CStr × UInt8) × UInt8))
    (h : Handled cfg κ) :
    (es.foldl (retainedOne env me) h).broker.table = h.broker.table ∧
      subacks (es.foldl (retainedOne env me) h).log = subacks h.log := by
  induction es generalizing h with
  | nil => exact ⟨rfl, rfl⟩
  | cons e es ih =>
      obtain ⟨htable, hlog⟩ := ih (retainedOne env me h e)
      rw [List.foldl_cons, htable, hlog]
      unfold retainedOne
      split_ifs
      · exact ⟨rfl, rfl⟩
      · refine ⟨rfl, ?_⟩
        dsimp only
        rw [subacks_append]
        have hnone : subacks ((topicDeliverRetained h.broker.retains (h.broker.clients me) e.1.1
            e.1.2 env.now (env.sendOk me)).2.map fun f ↦ (.reply f : Output cfg κ)) = [] := by
          rw [subacks, List.filterMap_map, List.filterMap_eq_nil_iff]
          intro frame hframe
          obtain ⟨pub, hbuild⟩ := deliverRetained_built _ _ _ _ _ _ frame hframe
          obtain ⟨enc, -, rfl⟩ := packetBuildPublish_frame hbuild
          simp [publishHeader_ne_suback pub]
        rw [hnone, List.append_nil]

/-! ## The packet -/

theorem distinct_topicRun [Inhabited κ] {ops : List (TopicOp κ)}
    (hops : ∀ op ∈ ops, op.StoredWhole) {t : TopicTable cfg κ} (h : topicRun cfg ops = some t) :
    t.Distinct := by
  obtain ⟨t', hrun, ht'⟩ := (@TopicTable.kept_init cfg κ _).foldlM hops
  obtain rfl : t' = t := Option.some.inj (hrun.symm.trans h)
  exact ht'.distinct

/-- The codes can be sent. -/
theorem packetBuildSuback_codesOf (me : κ) (t : TopicTable cfg κ) {id : UInt16}
    {topics : List (CStr × UInt8)} (hid : id ≠ 0) (hpos : 1 ≤ topics.length)
    (hmax : topics.length ≤ 8) (hfits : ∀ e ∈ topics, e.1.length < MQTT_TOPIC_MAX ∧ e.2 ≤ 2) :
    ∃ frame, packetBuildSuback id (codesOf me t topics) 32 = some frame ∧
      frame.head? = some PacketType.suback := by
  have hlen : (codesOf me t topics).length = topics.length := length_codesOf
  have hcodes : ((codesOf me t topics).any fun r ↦ r ≠ 0 ∧ r ≠ 1 ∧ r ≠ 2 ∧ r ≠ 0x80) = false := by
    rw [List.any_eq_false]
    intro code hmem
    obtain ⟨i, hi, hget⟩ := List.getElem_of_mem hmem
    obtain ⟨⟨f, q⟩, htopic⟩ : ∃ e, topics[i]? = some e :=
      ⟨topics[i], List.getElem?_eq_getElem (hlen ▸ hi)⟩
    have hq : q ≤ 2 := (hfits _ (List.mem_of_getElem? htopic)).2
    obtain ⟨code', hcode', hturn⟩ := codesOf_get (t := t) hfits htopic
    rw [List.getElem?_eq_getElem hi, hget, Option.some.injEq] at hcode'
    subst hcode'
    by_cases hbad : code = 0x80
    · simp [hbad]
    · rw [(hturn.code_iff hq).2 hbad]
      rcases u8_le_two hq with hq | hq | hq <;> simp [hq]
  have hroom : ¬ (id = 0 ∨ codesOf me t topics = [] ∨ 32 < 4 + (codesOf me t topics).length) := by
    rintro (hzero | hnil | hlong)
    · exact hid hzero
    · rw [hnil, List.length_nil] at hlen
      omega
    · omega
  refine ⟨_, by rw [packetBuildSuback, if_neg hroom, if_neg (by rw [hcodes]; simp)], rfl⟩

/-- A SUBSCRIBE that is accepted is answered with one SUBACK, whose codes agree with the table. -/
theorem suback_agrees [Inhabited κ] {ops : List (TopicOp κ)} (hops : ∀ op ∈ ops, op.StoredWhole)
    {b : Broker cfg κ} (htable : topicRun cfg ops = some b.table) (env : Env κ) (me : κ)
    {pkt : MqttPacket} {id : UInt16} {topics : List (CStr × UInt8)}
    (hparse : packetParseSubscribe pkt 8 = some (id, topics)) :
    ∃ codes frame, CodesAgree me b.table (handleSubscribe env b me pkt).broker.table topics codes ∧
      packetBuildSuback id codes 32 = some frame ∧
      subacks (handleSubscribe env b me pkt).log = [frame] := by
  have hfits := packetParseSubscribe_fits hparse
  obtain ⟨-, hid, -, hpos, hmax⟩ := packetParseSubscribe_iff.mp hparse
  obtain ⟨frame, hframe, hhead⟩ := packetBuildSuback_codesOf me b.table hid hpos hmax
    hfits
  obtain ⟨notes, hall⟩ := subscribeAll_eq me b.table topics
  refine ⟨codesOf me b.table topics, frame, ?_, hframe, ?_⟩
  all_goals
    rw [handleSubscribe, hparse]
    dsimp only
    change topics.foldl (subscribeOne me) (b.table, [], []) = _ at hall
    rw [hall]
    dsimp only
    rw [hframe]
  · rw [(retainedAll_frame env me _ _).1]
    exact codesAgree hfits (distinct_topicRun hops htable)
  · rw [(retainedAll_frame env me _ _).2, Handled.reply]
    dsimp only
    rw [subacks_append, subacks_notify]
    simp [subacks, hhead]

end Tables

namespace SubackSample

/-- No client has subscribed to anything. -/
def broker : Broker Config.posix ℕ := ⟨topicInit Config.posix ℕ, none, fun _ ↦ default, none⟩

/-- A SUBSCRIBE to `a` with QoS 1, to `#b`, and to `a` again with QoS 2. -/
def packet : MqttPacket :=
  ⟨0x82, 15, [0, 7, 0, 1, 0x61, 1, 0, 2, 0x23, 0x62, 0, 0, 1, 0x61, 2]⟩

end SubackSample

open SubackSample in
theorem suback_agrees_repeated : ∃ codes frame, CodesAgree 0 broker.table
      (handleSubscribe ⟨0, true, fun _ ↦ true⟩ broker 0 packet).broker.table
      [([0x61], 1), ([0x23, 0x62], 0), ([0x61], 2)] codes ∧
    packetBuildSuback 7 codes 32 = some frame ∧
    subacks (handleSubscribe ⟨0, true, fun _ ↦ true⟩ broker 0 packet).log = [frame] :=
  suback_agrees (List.forall_mem_nil _) rfl _ _ (by decide +kernel)

end MqttBroker
