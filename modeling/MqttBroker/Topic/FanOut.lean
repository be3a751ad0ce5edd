import MqttBroker.Topic.Publish

/-!
# Fan-out is a scan of the table

Both fan-out paths of `topic_publish` send to the clients that a naive scan of
the whole table finds, each once.
-/

namespace MqttBroker

open Ch IntrusiveList

/-- Without wildcards a filter matches its own text only. -/
theorem topicMatch_plain {f : CStr} (hf : hasWildcard f = false) (t : CStr) :
    topicMatch f t = true ↔ f = t := by
  have hwalk : ∀ f : CStr, hasWildcard f = false → ∀ t, matchFrom true f t = decide (f = t) := by
    have h := matchFrom_levelWalk true
    intro f
    induction f with
    | nil => exact fun _ t ↦ by simp [h.filterEnd, eq_comm]
    | cons c f ih =>
        intro hf t
        rw [hasWildcard_eq_false_iff] at hf
        simp only [List.mem_cons, not_or] at hf
        obtain ⟨⟨hp, hpf⟩, hh, hhf⟩ := hf
        cases t with
        | nil =>
            rw [h.topicEnd c f (Ne.symm hh)]
            have : c :: f ≠ [slash, hash] := by
              rintro heq
              simp [(List.cons.inj heq).2] at hhf
            simp [this]
        | cons d t =>
            rw [h.charStep c f d t (Ne.symm hh) (Ne.symm hp),
              ih (hasWildcard_eq_false_iff.mpr ⟨hpf, hhf⟩)]
            simp
  have hguard : dollarGuard f t = false := by
    cases f with
    | nil => simp [dollarGuard]
    | cons c f =>
        rw [hasWildcard_eq_false_iff] at hf
        simp only [List.mem_cons, not_or] at hf
        simp [dollarGuard, Ne.symm hf.1.1, Ne.symm hf.2.1]
  simp [topicMatch, hguard, hwalk f hf t]

variable {κ : Type} {cfg : Config}

/-- The slots a publish on `topic` is for, by a scan of the table. -/
def Matching (t : TopicTable cfg κ) (topic : CStr) (i : Slot cfg) : Prop :=
  (t.subs i).inUse = true ∧ topicMatch (t.subs i).filter topic = true

/-- Client `c` holds a subscription that matches. -/
def Subscribed (t : TopicTable cfg κ) (topic : CStr) (c : κ) : Prop :=
  ∃ i, Matching t topic i ∧ (t.subs i).client = c

/-- The two list walks end and together visit exactly the matching slots. -/
theorem hits_eq {t : TopicTable cfg κ} (h : t.IsLinked) (topic : CStr) :
    ∃ l, hits t topic = some l ∧ ∀ i, i ∈ l ↔ Matching t topic i := by
  obtain ⟨exact, wild, h⟩ := h
  set bucket := topicBucket cfg topic with hbucket
  have hwx := (h.exact_chain bucket).walk_eq (TopicTable.nodup_length_le (h.exact_nodup bucket))
  have hww := h.wild_chain.walk_eq (TopicTable.nodup_length_le h.wild_nodup)
  refine ⟨_, by simp [hits, exactHits, wildcardHits, ← hbucket, hwx, hww]; rfl, fun i ↦ ?_⟩
  simp only [List.mem_append, List.mem_filter, h.mem_exact, h.mem_wild, Bool.and_eq_true,
    decide_eq_true_eq, Matching]
  cases hx : (t.subs i).isExact with
  | true =>
      have hplain := h.exact_plain i
      constructor
      · rintro (⟨-, hu, hf⟩ | ⟨⟨-, hw⟩, -⟩)
        · exact ⟨hu, (topicMatch_plain (hplain hu hx) topic).mpr hf⟩
        · simp at hw
      · rintro ⟨hu, hm⟩
        have hf := (topicMatch_plain (hplain hu hx) topic).mp hm
        exact Or.inl ⟨⟨hu, rfl, by rw [hf]⟩, hu, hf⟩
  | false => simp

variable [DecidableEq κ]

theorem mem_foldl_addTarget (t : TopicTable cfg κ) (l : List (Slot cfg)) (targets : List κ)
    (c : κ) : c ∈ l.foldl (addTarget t) targets ↔
      c ∈ targets ∨ ∃ i ∈ l, (t.subs i).client = c := by
  induction l generalizing targets with
  | nil => simp
  | cons i l ih =>
      rw [List.foldl_cons, ih, addTarget]
      split_ifs with hi
      · constructor
        · rintro (hc | ⟨j, hj, hc⟩)
          · exact Or.inl hc
          · exact Or.inr ⟨j, List.mem_cons_of_mem i hj, hc⟩
        · rintro (hc | ⟨j, hj, rfl⟩)
          · exact Or.inl hc
          · rcases List.mem_cons.mp hj with rfl | hj
            · exact Or.inl hi
            · exact Or.inr ⟨j, hj, rfl⟩
      · rw [List.mem_append, List.mem_singleton, or_assoc, eq_comm (a := c)]
        simp

theorem nodup_foldl_addTarget (t : TopicTable cfg κ) (l : List (Slot cfg)) {targets : List κ}
    (h : targets.Nodup) : (l.foldl (addTarget t) targets).Nodup := by
  induction l generalizing targets with
  | nil => exact h
  | cons i l ih =>
      rw [List.foldl_cons]
      refine ih ?_
      unfold addTarget
      split_ifs with hi
      · exact h
      · exact List.nodup_append.mpr ⟨h, List.nodup_singleton _,
          fun a ha b hb ↦ by rw [List.mem_singleton.mp hb]; exact ne_of_mem_of_not_mem ha hi⟩

/-- Distinct clients of slots are no more than there are slots. -/
theorem length_le_of_clients (t : TopicTable cfg κ) {l : List κ} (hnd : l.Nodup)
    (h : ∀ c ∈ l, ∃ i, (t.subs i).client = c) : l.length ≤ cfg.topicMaxSubs := by
  have hsub : l.toFinset ⊆ Finset.univ.image fun i ↦ (t.subs i).client := by
    intro c hc
    obtain ⟨i, hi⟩ := h c (List.mem_toFinset.mp hc)
    exact Finset.mem_image.mpr ⟨i, Finset.mem_univ i, hi⟩
  calc l.length = l.toFinset.card := (List.toFinset_card_of_nodup hnd).symm
    _ ≤ (Finset.univ.image fun i ↦ (t.subs i).client).card := Finset.card_le_card hsub
    _ ≤ (Finset.univ : Finset (Slot cfg)).card := Finset.card_image_le
    _ = cfg.topicMaxSubs := by simp

/-- What the loops of `topic_publish_qos_locked` have collected: one target for
each client seen, with an id where it has a QoS. -/
structure Collected.Good (t : TopicTable cfg κ) (pub : MqttPublish) (st : Collected κ) :
    Prop where
  targets_eq : st.targets.map DeliveryTarget.client = st.seen
  nodup : st.seen.Nodup
  from_slots : ∀ c ∈ st.seen, ∃ i, (t.subs i).client = c
  qos_le : ∀ d ∈ st.targets, d.qos ≤ pub.qos
  id_ne : ∀ d ∈ st.targets, 0 < d.qos → d.packetId ≠ 0

theorem collectQos_good {t : TopicTable cfg κ} {pub : MqttPublish} {st : Collected κ}
    (h : st.Good t pub) (i : Slot cfg) :
    (collectQos t pub st i).Good t pub ∧ (collectQos t pub st i).seen = addTarget t st.seen i := by
  unfold collectQos addTarget
  split_ifs with hi
  · exact ⟨h, rfl⟩
  · have hnd : (st.seen ++ [(t.subs i).client]).Nodup :=
      List.nodup_append.mpr ⟨h.nodup, List.nodup_singleton _,
        fun a ha b hb ↦ by rw [List.mem_singleton.mp hb]; exact ne_of_mem_of_not_mem ha hi⟩
    have hfrom : ∀ c ∈ st.seen ++ [(t.subs i).client], ∃ j, (t.subs j).client = c := by
      intro c hc
      rcases List.mem_append.mp hc with hc | hc
      · exact h.from_slots c hc
      · exact ⟨i, (List.mem_singleton.mp hc).symm⟩
    -- one client more than the targets so far still fits the array
    have hroom : ¬ cfg.topicMaxSubs ≤ st.targets.length := by
      have hlen := length_le_of_clients t hnd hfrom
      rw [← h.targets_eq] at hlen
      simp at hlen
      omega
    have hmin : (if pub.qos < (t.subs i).qos then pub.qos else (t.subs i).qos) ≤ pub.qos := by
      split_ifs with hq
      · exact UInt8.le_refl pub.qos
      · exact UInt8.not_lt.mp hq
    simp only [addQosDeliveryTarget, hroom, if_false]
    generalize (if pub.qos < (t.subs i).qos then pub.qos else (t.subs i).qos) = qos at hmin
    split_ifs with hpos
    · refine ⟨⟨by simp [h.targets_eq], hnd, hfrom, fun d hd ↦ ?_, fun d hd hq ↦ ?_⟩, rfl⟩
      · rcases List.mem_append.mp hd with hd | hd
        · exact h.qos_le d hd
        · rw [List.mem_singleton.mp hd]
          exact hmin
      · rcases List.mem_append.mp hd with hd | hd
        · exact h.id_ne d hd hq
        · rw [List.mem_singleton.mp hd]
          exact Client.advancePacketId_ne_zero _
    · refine ⟨⟨by simp [h.targets_eq], hnd, hfrom, fun d hd ↦ ?_, fun d hd hq ↦ ?_⟩, rfl⟩
      · rcases List.mem_append.mp hd with hd | hd
        · exact h.qos_le d hd
        · rw [List.mem_singleton.mp hd]
          exact hmin
      · rcases List.mem_append.mp hd with hd | hd
        · exact h.id_ne d hd hq
        · rw [List.mem_singleton.mp hd] at hq
          exact absurd hq hpos

theorem foldl_collectQos_good {t : TopicTable cfg κ} {pub : MqttPublish} (l : List (Slot cfg))
    {st : Collected κ} (h : st.Good t pub) :
    (l.foldl (collectQos t pub) st).Good t pub ∧
      (l.foldl (collectQos t pub) st).seen = l.foldl (addTarget t) st.seen := by
  induction l generalizing st with
  | nil => exact ⟨h, rfl⟩
  | cons i l ih =>
      obtain ⟨hgood, hseen⟩ := collectQos_good h i
      obtain ⟨hgood', hseen'⟩ := ih hgood
      exact ⟨hgood', by rw [List.foldl_cons, hseen', hseen, List.foldl_cons]⟩

/-- No target has a QoS above those of the subscriptions. -/
theorem foldl_collectQos_qos_le {t : TopicTable cfg κ} {pub : MqttPublish} {q : UInt8}
    (l : List (Slot cfg)) (hl : ∀ i ∈ l, (t.subs i).qos ≤ q) {st : Collected κ}
    (hst : ∀ d ∈ st.targets, d.qos ≤ q) :
    ∀ d ∈ (l.foldl (collectQos t pub) st).targets, d.qos ≤ q := by
  induction l generalizing st with
  | nil => exact hst
  | cons i l ih =>
      refine ih (fun j hj ↦ hl j (List.mem_cons_of_mem i hj)) fun d hd ↦ ?_
      have hmin : (if pub.qos < (t.subs i).qos then pub.qos else (t.subs i).qos) ≤ q := by
        have hi := hl i List.mem_cons_self
        split_ifs with hlt
        · exact UInt8.le_trans (UInt8.le_of_lt hlt) hi
        · exact hi
      simp only [collectQos, addQosDeliveryTarget] at hd
      generalize (if pub.qos < (t.subs i).qos then pub.qos else (t.subs i).qos) = qos at hd hmin
      split_ifs at hd
      · exact hst d hd
      · exact hst d hd
      all_goals
        rcases List.mem_append.mp hd with hd | hd
        · exact hst d hd
        · rw [List.mem_singleton.mp hd]
          exact hmin

/-- The deliveries that succeed in building a frame are all of them. -/
theorem foldl_deliverQos (env : Env κ) (pub : MqttPublish) (targets : List (DeliveryTarget κ))
    (hbuild : ∀ d ∈ targets, (targetPublish pub d).Sendable)
    (r : (κ → Client) × List (κ × Bytes)) :
    ∃ sent, (targets.foldl (deliverQos env pub) r).2 = r.2 ++ sent ∧
      sent.map Prod.fst = targets.map DeliveryTarget.client ∧
      ∀ s ∈ sent, ∃ d ∈ targets, packetBuildPublish (targetPublish pub d)
        (MQTT_MAX_PACKET_SIZE + 8) = some s.2 := by
  induction targets generalizing r with
  | nil => exact ⟨[], by simp, rfl, by simp⟩
  | cons d targets ih =>
      obtain ⟨enc, -, hframe⟩ := packetBuildPublish_eq (hbuild d List.mem_cons_self)
      obtain ⟨sent, hsent, hfst, hframes⟩ :=
        ih (fun e he ↦ hbuild e (List.mem_cons_of_mem d he)) (deliverQos env pub r d)
      have hstep : (deliverQos env pub r d).2 =
          r.2 ++ [(d.client, publishHeader (targetPublish pub d) ::
            (enc ++ publishBody (targetPublish pub d)))] := by
        simp [deliverQos, hframe]
      refine ⟨(d.client, publishHeader (targetPublish pub d) ::
            (enc ++ publishBody (targetPublish pub d))) :: sent, ?_, ?_, ?_⟩
      · rw [List.foldl_cons, hsent, hstep]
        simp
      · simp [hfst]
      · intro s hs
        rcases List.mem_cons.mp hs with rfl | hs
        · exact ⟨d, List.mem_cons_self, hframe⟩
        · obtain ⟨e, he, hbe⟩ := hframes s hs
          exact ⟨e, List.mem_cons_of_mem d he, hbe⟩

/-- The message fits the arrays of `mqtt_publish_t`. -/
def MqttPublish.Fits (pub : MqttPublish) : Prop :=
  pub.topic.length < MQTT_TOPIC_MAX ∧ pub.payload.length ≤ MQTT_PAYLOAD_MAX

/-- The frames went to the clients with a matching subscription, one to each,
and every frame is a PUBLISH of the message. -/
def DeliversExactly (t : TopicTable cfg κ) (pub : MqttPublish) (sent : List (κ × Bytes)) :
    Prop :=
  (sent.map Prod.fst).Nodup ∧
    (∀ c, c ∈ sent.map Prod.fst ↔ Subscribed t pub.topic c) ∧
    ∀ s ∈ sent, ∃ qos id, packetBuildPublish
      { pub with retain := 0, qos := qos, packetId := id } (MQTT_MAX_PACKET_SIZE + 8) = some s.2

section

variable {t : TopicTable cfg κ} (h : t.IsLinked) (env : Env κ) (clients : κ → Client)
  {pub : MqttPublish} (hfits : pub.Fits) (hne : pub.topic ≠ [])
  (hplain : hasWildcard pub.topic = false)

include h hfits hne hplain

theorem topicPublishQos0_delivers (hq : pub.qos = 0) :
    ∃ r, topicPublishQos0 env t clients pub = some r ∧ DeliversExactly t pub r.2 := by
  obtain ⟨l, hl, hmem⟩ := hits_eq h pub.topic
  have hsendable : ({ pub with retain := 0, packetId := 0 } : MqttPublish).Sendable :=
    ⟨hfits.1, hne, hplain, by simp [hq], fun hpos ↦ by simp [hq] at hpos, hfits.2⟩
  obtain ⟨enc, -, hframe⟩ := packetBuildPublish_eq hsendable
  refine ⟨_, by simp [topicPublishQos0, hl, hframe]; rfl, ?_, fun c ↦ ?_, fun s hs ↦ ?_⟩
  · simpa [Function.comp_def] using nodup_foldl_addTarget t l List.nodup_nil
  · simp [Function.comp_def, mem_foldl_addTarget, hmem, Subscribed]
  · obtain ⟨c, -, rfl⟩ := List.mem_map.mp hs
    exact ⟨pub.qos, 0, hframe⟩

theorem topicPublishQos_delivers
    (hq : pub.qos ≤ 2 ∨ ∀ i, Matching t pub.topic i → (t.subs i).qos ≤ 2) :
    ∃ r, topicPublishQos env t clients pub = some r ∧ DeliversExactly t pub r.2 := by
  obtain ⟨l, hl, hmem⟩ := hits_eq h pub.topic
  have hempty : (⟨[], [], clients⟩ : Collected κ).Good t pub :=
    ⟨rfl, List.nodup_nil, by simp, by simp, by simp⟩
  obtain ⟨hgood, hseen⟩ := foldl_collectQos_good l hempty
  have hle : ∀ d ∈ (l.foldl (collectQos t pub) ⟨[], [], clients⟩).targets, d.qos ≤ 2 := by
    rcases hq with hq | hq
    · exact fun d hd ↦ UInt8.le_trans (hgood.qos_le d hd) hq
    · exact foldl_collectQos_qos_le l (fun i hi ↦ hq i ((hmem i).mp hi)) (by simp)
  generalize hst : l.foldl (collectQos t pub) ⟨[], [], clients⟩ = st at hgood hseen hle
  have hbuild : ∀ d ∈ st.targets, (targetPublish pub d).Sendable := fun d hd ↦
    ⟨hfits.1, hne, hplain, hle d hd, hgood.id_ne d hd, hfits.2⟩
  obtain ⟨sent, hsent, hfst, hframes⟩ :=
    foldl_deliverQos env pub st.targets hbuild (st.clients, [])
  have hclients : sent.map Prod.fst = l.foldl (addTarget t) [] := by
    rw [hfst, hgood.targets_eq, hseen]
  refine ⟨_, by simp [topicPublishQos, hl, hst]; rfl, ?_, fun c ↦ ?_, fun s hs ↦ ?_⟩
  · rw [hsent, List.nil_append, hclients]
    exact nodup_foldl_addTarget t l List.nodup_nil
  · rw [hsent, List.nil_append, hclients, mem_foldl_addTarget]
    simp [hmem, Subscribed]
  · rw [hsent, List.nil_append] at hs
    obtain ⟨d, -, hd⟩ := hframes s hs
    exact ⟨d.qos, d.packetId, hd⟩

theorem topicFanOut_delivers
    (hq : pub.qos ≤ 2 ∨ ∀ i, Matching t pub.topic i → (t.subs i).qos ≤ 2) :
    ∃ r, topicFanOut env t clients pub = some r ∧ DeliversExactly t pub r.2 := by
  unfold topicFanOut
  split_ifs with h0
  · exact topicPublishQos0_delivers h env clients hfits hne hplain h0
  · exact topicPublishQos_delivers h env clients hfits hne hplain hq

end

/-- A linked table: `topic_publish` returns, and where it returns 0 it has sent
to the clients with a matching subscription. -/
theorem topicPublish_of_isLinked {b : Broker cfg κ} (hlinked : b.table.IsLinked) (env : Env κ)
    {pub : MqttPublish} (hfits : pub.Fits) (hne : pub.topic ≠ [])
    (hplain : hasWildcard pub.topic = false) (hq : pub.qos ≤ 2) :
    ∃ r, topicPublish env b pub = some r ∧ (r.rc = 0 → DeliversExactly b.table pub r.sent) := by
  obtain ⟨r, hr, hd⟩ := topicFanOut_delivers hlinked env b.clients hfits hne hplain (.inl hq)
  unfold topicPublish topicPublishInternal
  split
  · exact ⟨_, rfl, by simp⟩
  · exact ⟨_, by rw [hr]; rfl, fun _ ↦ hd⟩

/-- After any calls since `topic_init`, `topic_publish` sends exactly to the
clients with a matching subscription, unless it needs a retained store that
cannot be allocated. -/
theorem topicPublish_delivers [Inhabited κ] (ops : List (TopicOp κ)) (b : Broker cfg κ)
    (hrun : topicRun cfg ops = some b.table) (env : Env κ) (pub : MqttPublish)
    (hfits : pub.Fits) (hne : pub.topic ≠ []) (hplain : hasWildcard pub.topic = false)
    (hq : pub.qos ≤ 2) (hstore : pub.retain ≠ 0 → b.retains ≠ none ∨ env.callocOk = true) :
    ∃ r, topicPublish env b pub = some r ∧ DeliversExactly b.table pub r.sent := by
  obtain ⟨t, ht, hlinked⟩ := topicRun_isLinked cfg ops
  obtain rfl : t = b.table := Option.some.inj (ht.symm.trans hrun)
  obtain ⟨r, hr, hd⟩ := topicPublish_of_isLinked hlinked env hfits hne hplain hq
  refine ⟨r, hr, hd ((topicPublishInternal_rc hr).mpr ?_)⟩
  by_cases h0 : pub.retain = 0
  · exact Or.inl h0
  · exact Or.inr (hstore h0)

/-- One client subscribed to `a` and a retained publish on it. -/
def oneSubscriber (callocOk : Bool) : Broker Config.posix ℕ × Env ℕ × MqttPublish :=
  (⟨((topicInit Config.posix ℕ).topicSubscribe 0 [0x61] 1).1, none, fun _ ↦ clientAllocated 3,
      none⟩,
    ⟨0, callocOk, fun _ ↦ true⟩, ⟨[0x61], [0x78], 1, 1, 0, 7⟩)

/-- The statement at a retained publish that finds memory. -/
theorem topicPublish_delivers_oneSubscriber :
    ∃ r, topicPublish (oneSubscriber true).2.1 (oneSubscriber true).1 (oneSubscriber true).2.2 =
        some r ∧
      DeliversExactly (oneSubscriber true).1.table (oneSubscriber true).2.2 r.sent :=
  topicPublish_delivers [.subscribe 0 [0x61] 1] _ rfl _ _ (by unfold MqttPublish.Fits; decide)
    (by decide) (by decide) (by decide) fun _ ↦ Or.inr rfl

/-- Without memory for the retained store the publish returns `-1` and the
subscriber gets nothing. -/
theorem topicPublish_no_retain_store :
    topicRun Config.posix [.subscribe 0 [0x61] 1] = some (oneSubscriber false).1.table ∧
      ∃ r, topicPublish (oneSubscriber false).2.1 (oneSubscriber false).1
          (oneSubscriber false).2.2 = some r ∧
        r.rc = -1 ∧ r.sent = [] ∧
        Subscribed (oneSubscriber false).1.table (oneSubscriber false).2.2.topic 0 ∧
        ¬ DeliversExactly (oneSubscriber false).1.table (oneSubscriber false).2.2 r.sent := by
  have hsub : Subscribed (oneSubscriber false).1.table (oneSubscriber false).2.2.topic 0 :=
    ⟨⟨0, by decide⟩, by unfold Matching; decide, rfl⟩
  refine ⟨rfl, ⟨(oneSubscriber false).1, -1, [], []⟩, rfl, rfl, rfl, hsub, fun hd ↦ ?_⟩
  exact absurd ((hd.2.1 0).mpr hsub) (by simp)

end MqttBroker
