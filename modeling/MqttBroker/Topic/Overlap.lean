import MqttBroker.Lib.FirstMatch
import MqttBroker.PublishFrame
import MqttBroker.Topic.FanOut

/-!
# Overlapping subscriptions

A client with several matching subscriptions gets one frame, at the QoS of the subscription
that the fan-out meets first.
-/

namespace MqttBroker

open FirstMatch IntrusiveList

/-! ## The QoS of a frame -/

/-- The QoS that the first byte of a frame carries. -/
def frameQos (frame : Bytes) : UInt8 := qosBits (frame.headD 0)

theorem frameQos_of_build {pub : MqttPublish} {outCap : ℕ} {frame : Bytes}
    (h : packetBuildPublish pub outCap = some frame) :
    frameQos frame = pub.qos ||| qosBits pub.retain := by
  obtain ⟨enc, -, rfl⟩ := packetBuildPublish_frame h
  exact (publishHeader_bits (sendable_of_build h).qos_le).1

theorem granted_toNat (p q : UInt8) : (if p < q then p else q).toNat = min p.toNat q.toNat := by
  split_ifs with h
  · exact (min_eq_left (UInt8.lt_iff_toNat_lt.mp h).le).symm
  · exact (min_eq_right (UInt8.not_lt.mp h)).symm

variable {κ : Type} {cfg : Config}

/-! ## The subscription that is met first -/

section

variable (t : TopicTable cfg κ) (topic : CStr) (c : κ)

/-- The matching subscriptions of a client. -/
def matchingOf : Set (Slot cfg) := {i | Matching t topic i ∧ (t.subs i).client = c}

/-- What the matching subscriptions of a client grant. -/
def grants : Set ℕ := (fun i ↦ (t.subs i).qos.toNat) '' matchingOf t topic c

/-- An exact subscription is ahead of every wildcard one, else the lists decide. -/
def Ahead (i j : Slot cfg) : Prop :=
  match (t.subs i).isExact, (t.subs j).isExact with
  | true, true => Behind t.exactNext i j
  | true, false => True
  | false, true => False
  | false, false => Behind t.wildcardNext i j

/-- Slot `i` is ahead of the client's other matching subscriptions. -/
def Foremost (i : Slot cfg) : Prop :=
  i ∈ matchingOf t topic c ∧ ∀ j ∈ matchingOf t topic c, j ≠ i → Ahead t i j

end

/-- The fan-out meets the matching slots in the order of the table. -/
theorem hits_pairwise {t : TopicTable cfg κ} (h : t.IsLinked) {topic : CStr}
    {l : List (Slot cfg)} (hl : hits t topic = some l) :
    l.Pairwise fun i j ↦ Ahead t i j ∧ ¬ Ahead t j i := by
  obtain ⟨exact, wild, h⟩ := h
  set bucket := topicBucket cfg topic with hbucket
  have hwx := (h.exact_chain bucket).walk_eq (TopicTable.nodup_length_le (h.exact_nodup bucket))
  have hww := h.wild_chain.walk_eq (TopicTable.nodup_length_le h.wild_nodup)
  have hexact : ∀ i ∈ exact bucket, (t.subs i).isExact = true :=
    fun i hi ↦ ((h.mem_exact bucket i).mp hi).2.1
  have hwild : ∀ i ∈ wild, (t.subs i).isExact = false := fun i hi ↦ ((h.mem_wild i).mp hi).2
  simp only [hits, exactHits, wildcardHits, ← hbucket, hwx, hww, Option.map_some,
    Option.bind_eq_bind, Option.bind_some, Option.some.injEq] at hl
  subst hl
  refine List.pairwise_append.mpr ⟨?_, ?_, fun i hi j hj ↦ ?_⟩
  · refine ((h.exact_chain bucket).pairwise_behind (h.exact_nodup bucket)).imp_of_mem
      (fun {i j} hi hj hij ↦ ?_) |>.filter _
    simpa [Ahead, hexact i hi, hexact j hj] using hij
  · refine (h.wild_chain.pairwise_behind h.wild_nodup).imp_of_mem
      (fun {i j} hi hj hij ↦ ?_) |>.filter _
    simpa [Ahead, hwild i hi, hwild j hj] using hij
  · simp [Ahead, hexact i (List.mem_filter.mp hi).1, hwild j (List.mem_filter.mp hj).1]

variable [DecidableEq κ]

/-- The slot of a client that the fan-out meets first. -/
theorem find?_hits_iff {t : TopicTable cfg κ} (h : t.IsLinked) {topic : CStr}
    {l : List (Slot cfg)} (hl : hits t topic = some l) (c : κ) (i : Slot cfg) :
    l.find? (fun j ↦ (t.subs j).client = c) = some i ↔ Foremost t topic c i := by
  obtain ⟨l', hl', hmem⟩ := hits_eq h topic
  obtain rfl := Option.some.inj (hl.symm.trans hl')
  have hfound : ∀ i, l.find? (fun j ↦ (t.subs j).client = c) = some i →
      i ∈ matchingOf t topic c ∧
        ∀ j ∈ matchingOf t topic c, j ≠ i → Ahead t i j ∧ ¬ Ahead t j i := by
    intro i hi
    obtain ⟨hil, hc, hfirst⟩ := find?_foremost (hits_pairwise h hl) hi
    refine ⟨⟨(hmem i).mp hil, by simpa using hc⟩, fun j hj hne ↦ ?_⟩
    exact hfirst j ((hmem j).mpr hj.1) (by simpa using hj.2) hne
  constructor
  · intro hi
    exact ⟨(hfound i hi).1, fun j hj hne ↦ ((hfound i hi).2 j hj hne).1⟩
  · intro hi
    obtain ⟨k, hk⟩ : ∃ k, l.find? (fun j ↦ (t.subs j).client = c) = some k :=
      Option.isSome_iff_exists.mp
        (List.find?_isSome.mpr ⟨i, (hmem i).mpr hi.1.1, by simpa using hi.1.2⟩)
    by_cases hki : i = k
    · rw [hk, hki]
    · have hik := hi.2 k (hfound k hk).1 (Ne.symm hki)
      exact absurd hik ((hfound k hk).2 i hi.1 hki).2

/-! ## What the fan-out sends -/

section

variable {t : TopicTable cfg κ} {pub : MqttPublish}

theorem mem_seen_iff {l : List (Slot cfg)} {targets : List κ} {c : κ}
    (h : c ∉ targets) : c ∈ l.foldl (addTarget t) targets ↔
      ∃ i, l.find? (fun j ↦ (t.subs j).client = c) = some i := by
  rw [mem_foldl_addTarget, ← Option.isSome_iff_exists, List.find?_isSome]
  simp [h]

/-- The targets take the QoS from the slot that was met first. -/
theorem collectQos_targets (l : List (Slot cfg)) (clients : κ → Client) :
    ∀ d ∈ (l.foldl (collectQos t pub) ⟨[], [], clients⟩).targets, ∃ i,
      l.find? (fun j ↦ (t.subs j).client = d.client) = some i ∧
        d.qos.toNat = min pub.qos.toNat (t.subs i).qos.toNat := by
  have hempty : (⟨[], [], clients⟩ : Collected κ).Good t pub :=
    ⟨rfl, List.nodup_nil, by simp, by simp, by simp⟩
  induction l using List.reverseRecOn with
  | nil => simp
  | append_singleton l i ih =>
      obtain ⟨-, hseen⟩ := foldl_collectQos_good l hempty
      rw [List.foldl_append, List.foldl_cons, List.foldl_nil]
      generalize hst : l.foldl (collectQos t pub) ⟨[], [], clients⟩ = st at ih hseen
      have hold : ∀ d ∈ st.targets, ∃ k,
          (l ++ [i]).find? (fun j ↦ (t.subs j).client = d.client) = some k ∧
            d.qos.toNat = min pub.qos.toNat (t.subs k).qos.toNat := by
        intro d hd
        obtain ⟨k, hk, hqos⟩ := ih d hd
        exact ⟨k, by rw [List.find?_append, hk]; rfl, hqos⟩
      unfold collectQos
      split_ifs with hi
      · exact hold
      · have hnew : (l ++ [i]).find? (fun j ↦ (t.subs j).client = (t.subs i).client) = some i := by
          rw [hseen, mem_seen_iff List.not_mem_nil, not_exists] at hi
          rw [List.find?_append, Option.eq_none_iff_forall_ne_some.mpr hi]
          simp
        intro d hd
        have hgrant := granted_toNat pub.qos (t.subs i).qos
        simp only [addQosDeliveryTarget] at hd
        generalize (if pub.qos < (t.subs i).qos then pub.qos else (t.subs i).qos) = qos at hd hgrant
        split_ifs at hd
        · exact hold d hd
        all_goals
          rcases List.mem_append.mp hd with hd | hd
          · exact hold d hd
          · rw [List.mem_singleton.mp hd]
            exact ⟨i, hnew, hgrant⟩

/-- Each target is sent the frame that can be built for it. -/
theorem mem_foldl_deliverQos (env : Env κ) (targets : List (DeliveryTarget κ))
    (r : (κ → Client) × List (κ × Bytes)) (s : κ × Bytes) :
    s ∈ (targets.foldl (deliverQos env pub) r).2 ↔ s ∈ r.2 ∨ ∃ d ∈ targets, d.client = s.1 ∧
      packetBuildPublish (targetPublish pub d) (MQTT_MAX_PACKET_SIZE + 8) = some s.2 := by
  induction targets generalizing r with
  | nil => simp
  | cons d targets ih =>
      have hstep : s ∈ (deliverQos env pub r d).2 ↔ s ∈ r.2 ∨ d.client = s.1 ∧
          packetBuildPublish (targetPublish pub d) (MQTT_MAX_PACKET_SIZE + 8) = some s.2 := by
        unfold deliverQos
        cases hbuild : packetBuildPublish (targetPublish pub d) (MQTT_MAX_PACKET_SIZE + 8) with
        | none => simp [hbuild]
        | some buf => simp [hbuild, Prod.ext_iff, eq_comm]
      rw [List.foldl_cons, ih, hstep]
      simp [or_assoc]

end

/-- The frames of `topic_publish` are at the QoS that the slot met first grants, and only
what a PUBLISH can carry is sent. -/
theorem topicFanOut_qos {t : TopicTable cfg κ} (h : t.IsLinked) {env : Env κ}
    {clients : κ → Client} {pub : MqttPublish} {r : (κ → Client) × List (κ × Bytes)}
    (hr : topicFanOut env t clients pub = some r) :
    ∀ s ∈ r.2, ∃ i, Foremost t pub.topic s.1 i ∧
      (frameQos s.2).toNat = min pub.qos.toNat (t.subs i).qos.toNat ∧
      pub.topic ≠ [] ∧ hasWildcard pub.topic = false ∧ frameQos s.2 ≤ 2 := by
  obtain ⟨l, hl, -⟩ := hits_eq h pub.topic
  intro s hs
  have hzero : (qosBits 0) = 0 := by decide
  unfold topicFanOut at hr
  split_ifs at hr with h0
  · simp only [topicPublishQos0, hl, Option.bind_eq_bind, Option.bind_some] at hr
    cases hbuild : packetBuildPublish { pub with retain := 0, packetId := 0 }
      (MQTT_MAX_PACKET_SIZE + 8) with
    | none =>
        simp only [hbuild, Option.some.injEq] at hr
        subst hr
        cases hs
    | some frame =>
        simp only [hbuild, Option.some.injEq] at hr
        subst hr
        obtain ⟨c, hc, rfl⟩ := List.mem_map.mp hs
        obtain ⟨i, hi⟩ := (mem_seen_iff List.not_mem_nil).mp hc
        have hsend := sendable_of_build hbuild
        have hq : frameQos frame = 0 := by
          rw [frameQos_of_build hbuild, h0, hzero]
          rfl
        refine ⟨i, (find?_hits_iff h hl c i).mp hi, ?_, hsend.topic_ne, hsend.no_wildcard, ?_⟩
        · rw [hq, h0]
          simp
        · exact hq ▸ UInt8.zero_le
  · simp only [topicPublishQos, hl, Option.bind_eq_bind, Option.bind_some, Option.some.injEq] at hr
    subst hr
    obtain ⟨d, hd, hclient, hbuild⟩ :=
      ((mem_foldl_deliverQos env _ _ s).mp hs).resolve_left List.not_mem_nil
    obtain ⟨i, hi, hqos⟩ := collectQos_targets l clients d hd
    rw [hclient] at hi
    have hsend := sendable_of_build hbuild
    have hq : frameQos s.2 = d.qos := by
      rw [frameQos_of_build hbuild]
      simp [targetPublish, hzero]
    exact ⟨i, (find?_hits_iff h hl s.1 i).mp hi, hq ▸ hqos, hsend.topic_ne, hsend.no_wildcard,
      hq ▸ hsend.qos_le⟩

/-! ## The best of them -/

/-- Each client is sent the message at the best QoS that its matching subscriptions grant. -/
def SentBest (t : TopicTable cfg κ) (pub : MqttPublish) (sent : List (κ × Bytes)) : Prop :=
  ∀ s ∈ sent, Best pub.qos.toNat (grants t pub.topic s.1) (frameQos s.2).toNat

/-- None of the client's matching subscriptions grants more than the foremost, where this
grants what a PUBLISH can carry. -/
def ForemostBest (t : TopicTable cfg κ) (pub : MqttPublish) : Prop :=
  ∀ c i, Foremost t pub.topic c i → min pub.qos.toNat (t.subs i).qos.toNat ≤ 2 →
    ∀ j ∈ matchingOf t pub.topic c,
      min pub.qos.toNat (t.subs j).qos.toNat ≤ min pub.qos.toNat (t.subs i).qos.toNat

omit [DecidableEq κ] in
theorem best_foremost {t : TopicTable cfg κ} {pub : MqttPublish} {c : κ} {i : Slot cfg}
    (hi : Foremost t pub.topic c i) :
    Best pub.qos.toNat (grants t pub.topic c) (min pub.qos.toNat (t.subs i).qos.toNat) ↔
      ∀ j ∈ matchingOf t pub.topic c,
        min pub.qos.toNat (t.subs j).qos.toNat ≤ min pub.qos.toNat (t.subs i).qos.toNat :=
  best_iff (Set.toFinite _) hi.1

/-- A client whose foremost subscription grants what a PUBLISH can carry is sent a frame. -/
theorem exists_sent_of_foremost {t : TopicTable cfg κ} (h : t.IsLinked) {env : Env κ}
    {clients : κ → Client} {pub : MqttPublish} (hfits : pub.Fits) (hne : pub.topic ≠ [])
    (hplain : hasWildcard pub.topic = false) {r : (κ → Client) × List (κ × Bytes)}
    (hr : topicFanOut env t clients pub = some r) {c : κ} {i : Slot cfg}
    (hi : Foremost t pub.topic c i) (hle : min pub.qos.toNat (t.subs i).qos.toNat ≤ 2) :
    ∃ frame, (c, frame) ∈ r.2 := by
  obtain ⟨l, hl, -⟩ := hits_eq h pub.topic
  have hfound := (find?_hits_iff h hl c i).mpr hi
  have hseen : c ∈ l.foldl (addTarget t) [] := (mem_seen_iff List.not_mem_nil).mpr ⟨i, hfound⟩
  unfold topicFanOut at hr
  split_ifs at hr with h0
  · have hsend : ({ pub with retain := 0, packetId := 0 } : MqttPublish).Sendable :=
      ⟨hfits.1, hne, hplain, by simp [h0], fun hpos ↦ by simp [h0] at hpos, hfits.2⟩
    obtain ⟨enc, -, hframe⟩ := packetBuildPublish_eq hsend
    simp only [topicPublishQos0, hl, hframe, Option.bind_eq_bind, Option.bind_some,
      Option.some.injEq] at hr
    subst hr
    exact ⟨_, List.mem_map.mpr ⟨c, hseen, rfl⟩⟩
  · have hempty : (⟨[], [], clients⟩ : Collected κ).Good t pub :=
      ⟨rfl, List.nodup_nil, by simp, by simp, by simp⟩
    obtain ⟨hgood, hseen'⟩ := foldl_collectQos_good l hempty
    rw [← hseen', ← hgood.targets_eq] at hseen
    obtain ⟨d, hd, rfl⟩ := List.mem_map.mp hseen
    obtain ⟨k, hk, hqos⟩ := collectQos_targets l clients d hd
    obtain rfl := Option.some.inj (hfound.symm.trans hk)
    rw [← hqos] at hle
    have hsend : (targetPublish pub d).Sendable :=
      ⟨hfits.1, hne, hplain, UInt8.le_iff_toNat_le.mpr hle, hgood.id_ne d hd, hfits.2⟩
    obtain ⟨enc, -, hframe⟩ := packetBuildPublish_eq hsend
    simp only [topicPublishQos, hl, Option.bind_eq_bind, Option.bind_some, Option.some.injEq] at hr
    subst hr
    exact ⟨_, (mem_foldl_deliverQos env _ _ _).mpr (.inr ⟨d, hd, rfl, hframe⟩)⟩

theorem topicFanOut_sentBest_iff {t : TopicTable cfg κ} (h : t.IsLinked) {env : Env κ}
    {clients : κ → Client} {pub : MqttPublish} (hfits : pub.Fits) (hne : pub.topic ≠ [])
    (hplain : hasWildcard pub.topic = false) {r : (κ → Client) × List (κ × Bytes)}
    (hr : topicFanOut env t clients pub = some r) : SentBest t pub r.2 ↔ ForemostBest t pub := by
  have hunique : ∀ {c i j}, Foremost t pub.topic c i → Foremost t pub.topic c j → i = j := by
    intro c i j hi hj
    obtain ⟨l, hl, -⟩ := hits_eq h pub.topic
    rw [← find?_hits_iff h hl] at hi hj
    exact Option.some.inj (hi.symm.trans hj)
  constructor
  · intro hbest c i hi hle
    obtain ⟨frame, hs⟩ := exists_sent_of_foremost h hfits hne hplain hr hi hle
    obtain ⟨k, hk, hq, -⟩ := topicFanOut_qos h hr _ hs
    obtain rfl := hunique hi hk
    rw [← best_foremost hi, ← hq]
    exact hbest _ hs
  · intro hbest s hs
    obtain ⟨i, hi, hq, hsend⟩ := topicFanOut_qos h hr s hs
    rw [hq, best_foremost hi]
    rw [UInt8.le_iff_toNat_le, hq] at hsend
    exact hbest s.1 i hi hsend.2.2

theorem exists_topicPublish {b : Broker cfg κ} (h : b.table.IsLinked) (env : Env κ)
    (pub : MqttPublish) (propagate : Bool) :
    ∃ r, topicPublishInternal env b pub propagate = some r := by
  obtain ⟨l, hl, -⟩ := hits_eq h pub.topic
  have hfan : ∃ r, topicFanOut env b.table b.clients pub = some r := by
    unfold topicFanOut
    split_ifs
    · simp only [topicPublishQos0, hl, Option.bind_eq_bind, Option.bind_some]
      split <;> exact ⟨_, rfl⟩
    · exact ⟨_, by simp [topicPublishQos, hl]; rfl⟩
  obtain ⟨r, hr⟩ := hfan
  unfold topicPublishInternal
  split
  · exact ⟨_, rfl⟩
  · exact ⟨_, by rw [hr]; rfl⟩

/-- A `topic_publish` that sends anything sends the best if and only if the foremost of each
client's subscriptions grants it. -/
theorem topicPublish_sentBest_iff {b : Broker cfg κ} (h : b.table.IsLinked) {env : Env κ}
    {pub : MqttPublish} (hfits : pub.Fits) {r : Published cfg κ}
    (hr : topicPublish env b pub = some r) : SentBest b.table pub r.sent ↔
      (pub.topic ≠ [] → hasWildcard pub.topic = false →
        pub.retain = 0 ∨ b.retains ≠ none ∨ env.callocOk = true → ForemostBest b.table pub) := by
  have hrc := topicPublishInternal_rc hr
  unfold topicPublish topicPublishInternal at hr
  split at hr
  · cases hr
    refine iff_of_true (fun s hs ↦ absurd hs List.not_mem_nil) fun _ _ hstore ↦ ?_
    cases hrc.mpr hstore
  · obtain ⟨f, hf, rfl⟩ := Option.map_eq_some_iff.mp hr
    have hstore := hrc.mp rfl
    by_cases htopic : pub.topic ≠ [] ∧ hasWildcard pub.topic = false
    · rw [topicFanOut_sentBest_iff h hfits htopic.1 htopic.2 hf]
      exact ⟨fun hb _ _ _ ↦ hb, fun hb ↦ hb htopic.1 htopic.2 hstore⟩
    · have hnone : f.2 = [] := List.eq_nil_iff_forall_not_mem.mpr fun s hs ↦ by
        obtain ⟨-, -, -, hsend⟩ := topicFanOut_qos h hf s hs
        exact htopic ⟨hsend.1, hsend.2.1⟩
      refine iff_of_true (fun s hs ↦ ?_) fun hne hplain _ ↦ absurd ⟨hne, hplain⟩ htopic
      rw [hnone] at hs
      cases hs

end MqttBroker
