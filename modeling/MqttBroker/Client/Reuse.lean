import MqttBroker.Client.Observed

/-!
# Connections that take over a slot

The targets of a publish are pointers into the pool, used after `topic_lock` is
released.  A slot that is freed and allocated in between holds another
connection, which then gets the message.
-/

namespace MqttBroker

variable {cfg : Config} {κ σ : Type}

/-! ## Subscriptions and targets -/

namespace TopicTable

/-- Client `c` holds a subscription that matches the topic. -/
def Serves (t : TopicTable cfg κ) (topic : CStr) (c : κ) : Prop :=
  ∃ i, (t.subs i).inUse = true ∧ (t.subs i).client = c ∧
    ((t.subs i).filter = topic ∨ topicMatch (t.subs i).filter topic = true)

theorem hits_serve {t : TopicTable cfg κ} {topic : CStr} {l : List (Slot cfg)}
    (h : hits t topic = some l) : ∀ i ∈ l, t.Serves topic (t.subs i).client := by
  obtain ⟨exact, hexact, h⟩ := Option.bind_eq_some_iff.mp h
  obtain ⟨wild, hwild, h⟩ := Option.bind_eq_some_iff.mp h
  obtain rfl := Option.some.inj h
  obtain ⟨l, -, rfl⟩ := Option.map_eq_some_iff.mp hexact
  obtain ⟨l', -, rfl⟩ := Option.map_eq_some_iff.mp hwild
  intro i hi
  rcases List.mem_append.mp hi with hi | hi
  · obtain ⟨-, hp⟩ := List.mem_filter.mp hi
    simp only [Bool.and_eq_true, decide_eq_true_eq] at hp
    exact ⟨i, hp.1, rfl, Or.inl hp.2⟩
  · obtain ⟨-, hp⟩ := List.mem_filter.mp hi
    simp only [Bool.and_eq_true] at hp
    exact ⟨i, hp.1, rfl, Or.inr hp.2⟩

end TopicTable

section

variable [DecidableEq κ]

theorem mem_addTarget (t : TopicTable cfg κ) (l : List (Slot cfg)) (targets : List κ) :
    ∀ c ∈ l.foldl (addTarget t) targets, c ∈ targets ∨ ∃ i ∈ l, (t.subs i).client = c := by
  induction l generalizing targets with
  | nil => exact fun c hc ↦ Or.inl hc
  | cons i l ih =>
      intro c hc
      rcases ih _ c hc with hc | ⟨j, hj, hjc⟩
      · unfold addTarget at hc
        split_ifs at hc
        · exact Or.inl hc
        · rcases List.mem_append.mp hc with hc | hc
          · exact Or.inl hc
          · exact Or.inr ⟨i, List.mem_cons_self, (List.mem_singleton.mp hc).symm⟩
      · exact Or.inr ⟨j, List.mem_cons_of_mem i hj, hjc⟩

theorem mem_collectQos (t : TopicTable cfg κ) (pub : MqttPublish) (l : List (Slot cfg))
    (st : Collected κ) : ∀ target ∈ (l.foldl (collectQos t pub) st).targets,
      target ∈ st.targets ∨ ∃ i ∈ l, (t.subs i).client = target.client := by
  induction l generalizing st with
  | nil => exact fun target h ↦ Or.inl h
  | cons i l ih =>
      intro target h
      rcases ih _ target h with h | ⟨j, hj, hjc⟩
      · have hnew : ∀ qos id, target ∈ st.targets ++ [⟨(t.subs i).client, qos, id⟩] →
            target ∈ st.targets ∨ ∃ j ∈ i :: l, (t.subs j).client = target.client := by
          intro qos id hmem
          refine (List.mem_append.mp hmem).imp_right fun hmem ↦ ⟨i, List.mem_cons_self, ?_⟩
          rw [List.mem_singleton.mp hmem]
        simp only [collectQos, addQosDeliveryTarget] at h
        generalize (if pub.qos < (t.subs i).qos then pub.qos else (t.subs i).qos) = qos at h
        split_ifs at h
        · exact Or.inl h
        · exact Or.inl h
        · exact hnew _ _ h
        · exact hnew _ _ h
      · exact Or.inr ⟨j, List.mem_cons_of_mem i hj, hjc⟩

omit [DecidableEq κ] in
theorem mem_targetOps {pub : MqttPublish} {target : DeliveryTarget κ} {op : SendOp κ}
    (h : op ∈ targetOps pub target) : op.client = target.client := by
  unfold targetOps at h
  dsimp only at h
  split at h
  · simp at h
  · rcases List.mem_cons.mp h with rfl | h
    · rfl
    · split_ifs at h
      · obtain rfl := List.mem_singleton.mp h
        rfl
      · simp at h

/-- What is left to do of a fan-out concerns holders of a matching subscription. -/
theorem fanOutOps_serve {t : TopicTable cfg κ} {clients : κ → Client} {pub : MqttPublish}
    {r : (κ → Client) × List (SendOp κ)} (h : fanOutOps t clients pub = some r) :
    ∀ op ∈ r.2, t.Serves pub.topic op.client := by
  unfold fanOutOps at h
  split_ifs at h
  · obtain ⟨ops, hops, rfl⟩ := Option.map_eq_some_iff.mp h
    obtain ⟨slots, hslots, hops⟩ := Option.bind_eq_some_iff.mp hops
    split at hops
    · obtain rfl := Option.some.inj hops
      simp
    · obtain rfl := Option.some.inj hops
      intro op hop
      obtain ⟨c, hc, rfl⟩ := List.mem_map.mp hop
      rcases mem_addTarget t slots [] c hc with hc | ⟨i, hi, rfl⟩
      · simp at hc
      · exact TopicTable.hits_serve hslots i hi
  · obtain ⟨slots, hslots, h⟩ := Option.bind_eq_some_iff.mp h
    obtain rfl := Option.some.inj h
    intro op hop
    obtain ⟨target, htarget, hop⟩ := List.mem_flatMap.mp hop
    rw [mem_targetOps hop]
    rcases mem_collectQos t pub slots _ target htarget with h | ⟨i, hi, hic⟩
    · simp at h
    · exact hic ▸ TopicTable.hits_serve hslots i hi

theorem publishLocked_serve {env : Env κ} {b : Broker cfg κ} {pub : MqttPublish}
    {r : Broker cfg κ × Option (List (SendOp κ))} (h : publishLocked env b pub = some r) :
    r.1.table = b.table ∧ ∀ ops, r.2 = some ops → ∀ op ∈ ops, b.table.Serves pub.topic op.client := by
  unfold publishLocked at h
  split at h
  · cases h
    exact ⟨rfl, by simp⟩
  · obtain ⟨r', hops, rfl⟩ := Option.map_eq_some_iff.mp h
    refine ⟨rfl, ?_⟩
    rintro _ ⟨rfl⟩
    exact fanOutOps_serve hops

end

/-! ## Slots without a subscription -/

section

variable [DecidableEq κ]

open TopicTable

/-- Threads other than `me` keep the slot of `j` free of subscriptions. -/
theorem noneOf_rule (me : κ) : ThreadRule me fun b b' : Broker cfg κ ↦
    ∀ j, j ≠ me → b.table.NoneOf j → b'.table.NoneOf j where
  refl _ _ _ h := h
  trans h h' j hj hb := h' j hj (h j hj hb)
  subscribe _ filter qos _ _ _ j hj h := h.topicSubscribe hj filter qos
  restore _ filter qos j hj h := h.topicSubscribe hj filter qos
  unsubscribe _ _ _ hrun _ _ h := h.topicUnsubscribe hrun
  mark _ _ _ _ _ h := h
  send _ _ _ _ h := h
  ack _ _ _ _ h := h
  pubrec _ _ _ _ _ _ h := h
  retained _ _ _ _ _ _ _ h := h
  publish _ _ _ _ _ hrun _ _ h := by rwa [(topicPublishInternal_frame hrun).1]
  sessions _ _ _ _ h := h
  drain _ _ _ _ _ _ h := h
  retry _ _ _ _ _ h := h
  assignRest _ _ _ _ h := h
  closeFd _ _ _ h := h
  unsubscribeSection _ _ hrun _ _ h := (unsubscribeSection_removed hrun).1.noneOf h
  locked hrun _ _ h := by rwa [(publishLocked_serve hrun).1]
  op _ _ _ _ _ h := h

/-- Every step keeps the lists of the table linked. -/
theorem isLinked_rule (me : κ) : ThreadRule me fun b b' : Broker cfg κ ↦
    b.table.IsLinked → b'.table.IsLinked where
  refl _ h := h
  trans h h' hb := h' (h hb)
  subscribe _ filter qos _ _ _ h := h.topicSubscribe me filter qos
  restore _ filter qos h := h.topicSubscribe me filter qos
  unsubscribe _ filter _ hrun h := by
    obtain ⟨r, hr, hlinked⟩ := h.topicUnsubscribe me filter
    obtain rfl := Option.some.inj (hrun.symm.trans hr)
    exact hlinked
  mark _ _ _ h := h
  send _ _ h := h
  ack _ _ h := h
  pubrec _ _ _ _ h := h
  retained _ _ _ _ _ h := h
  publish _ _ _ _ _ hrun h := by rwa [(topicPublishInternal_frame hrun).1]
  sessions _ _ h := h
  drain _ _ _ _ h := h
  retry _ _ _ h := h
  assignRest _ _ h := h
  closeFd _ h := h
  unsubscribeSection _ _ hrun h := h.unsubscribeSection hrun
  locked hrun h := by rwa [(publishLocked_serve hrun).1]
  op _ _ _ h := h

/-- Where a thread's slot has no subscription. -/
def ConnPc.Bare : ConnPc cfg → Prop
  | .idle | .waiting | .takeover _ | .assignId _ | .assignRest _ | .openSession _ |
    .connack _ _ | .delete | .release => True
  | _ => False

theorem connStep_bare {env : Env κ} {b : Broker cfg κ} {me : κ} {pc pc' : ConnPc cfg}
    {h : Handled cfg κ} (hnext : connStep env b me pc = some (h, pc')) (hbare : pc'.Bare) :
    (pc.Bare ∧ h.broker.table = b.table) ∨ h.broker.table.NoneOf me := by
  cases pc with
  | takeover | assignId | assignRest | openSession | release =>
      cases hnext
      exact Or.inl ⟨trivial, rfl⟩
  | delete =>
      cases hnext
      refine Or.inl ⟨trivial, ?_⟩
      dsimp only
      split_ifs <;> rfl
  | unsubscribe =>
      obtain ⟨r, hsection, heq⟩ := Option.map_eq_some_iff.mp hnext
      cases heq
      refine Or.inr ((unsubscribeSection_removed hsection).2 ?_)
      cases hr : r.2 with
      | none => rfl
      | some n => simp [hr, ConnPc.Bare] at hbare
  | connack sess present =>
      cases hnext
      rcases sess with - | s <;> cases present <;> exact hbare.elim
  | restore | will | saveInflight =>
      simp only [connStep] at hnext
      split_ifs at hnext <;> cases hnext <;> exact hbare.elim
  | loop | collect =>
      cases hnext
      split_ifs at hbare <;> exact hbare.elim
  | lookup subs =>
      cases hnext
      split at hbare <;> exact hbare.elim
  | _ => cases hnext <;> exact hbare.elim

theorem connStep_marked {env : Env κ} {b : Broker cfg κ} {me : κ} {pc pc' : ConnPc cfg}
    {h : Handled cfg κ} (hnext : connStep env b me pc = some (h, pc')) (hmarked : pc.Marked) :
    h.broker.table = b.table := by
  cases pc with
  | takeover | assignId | release =>
      cases hnext
      rfl
  | _ => exact hmarked.elim

end

/-! ## Along a run -/

namespace Threads

/-- No slot is allocated while a publish still has something to do for it. -/
def SlotsKept (s : Threads cfg κ σ) (e : ThreadEvent κ σ) : Prop :=
  ∀ k fd, e = .alloc k fd → ∀ who job, s.jobs who = some job → ∀ op ∈ job.ops, op.client ≠ k

/-- The pending work of every publish is for the connections it was collected for. -/
structure Owned (s : Threads cfg κ σ) : Prop where
  free : ∀ k, (s.broker.clients k).state = .free → s.conn k = .idle
  bare : ∀ k, (s.conn k).Bare → s.broker.table.NoneOf k
  jobs : ∀ who job, s.jobs who = some job → ∀ op ∈ job.ops,
    job.table.Serves job.pub.topic op.client ∧ s.gen op.client = job.gens op.client

variable [DecidableEq κ] [DecidableEq σ] {s s' : Threads cfg κ σ} {e : ThreadEvent κ σ}

theorem Owned.free_step [Inhabited κ] (hs : s.Owned) (h : s.step e = some s') (k : κ)
    (hfree : (s'.broker.clients k).state = .free) : s'.conn k = .idle := idle_of_free hs.free h k hfree

theorem bare_step (hfree : ∀ k, (s.broker.clients k).state = .free → s.conn k = .idle)
    (hs : ∀ k, (s.conn k).Bare → s.broker.table.NoneOf k) (h : s.step e = some s') (k : κ)
    (hbare : (s'.conn k).Bare) : s'.broker.table.NoneOf k := by
  have hgoTo : ∀ (j : κ) (b : Broker cfg κ) (pc : ConnPc cfg),
      (∀ i, i ≠ j → s.broker.table.NoneOf i → b.table.NoneOf i) →
      (pc.Bare → b.table.NoneOf j) → ((s.goTo j b pc).conn k).Bare → b.table.NoneOf k := by
    intro j b pc hothers hself hk
    by_cases hkj : k = j
    · subst hkj
      rw [goTo_conn] at hk
      exact hself hk
    · have hconn : (s.goTo j b pc).conn k = s.conn k := Function.update_of_ne hkj _ _
      exact hothers k hkj (hs k (hconn ▸ hk))
  have hstay : ∀ (j : κ) (pc : ConnPc cfg), (pc.Bare → s.broker.table.NoneOf j) →
      ((s.goTo j s.broker pc).conn k).Bare → s.broker.table.NoneOf k := fun j pc ↦
    hgoTo j s.broker pc fun _ _ h ↦ h
  have hbegin : ∀ {s₁ : Threads cfg κ σ} {who : κ ⊕ σ} {env : Env κ} {pub : MqttPublish},
      s₁.begin who env pub = some s' → s'.broker.table = s₁.broker.table := by
    intro s₁ who env pub hb
    obtain ⟨r, hlocked, rfl⟩ := Option.map_eq_some_iff.mp hb
    exact (publishLocked_serve hlocked).1
  cases step_cases h with
  | alloc j fd hstate =>
      exact hgoTo j (clientAlloc s.broker j fd) .waiting (fun _ _ h ↦ h)
        (fun _ ↦ hs j (by rw [hfree j hstate]; trivial)) hbare
  | notConnect j => exact hstay j .closeFd False.elim hbare
  | connect j env pkt conn hpc =>
      exact hstay j (.takeover conn) (fun _ ↦ hs j (by rw [hpc]; trivial)) hbare
  | reject j env pkt code hpc hcheck =>
      refine hgoTo j (handleConnect env s.broker j pkt).broker .loop ?_ False.elim hbare
      rw [handleConnect, hcheck]
      exact (noneOf_rule j).trans ((noneOf_rule j).reply env _ ⟨s.broker, []⟩)
        ((noneOf_rule j).close _)
  | late j => exact hgoTo j _ .closeFd (fun _ _ h ↦ h) False.elim hbare
  | publishPacket j env pkt b pub ack hpc hb =>
      exact hgoTo j b (.publish pub ack) ((noneOf_rule j).publishBegin hb) False.elim hbare
  | packet j env pkt h' hpc hb hrun =>
      exact hgoTo j h'.broker .loop ((noneOf_rule j).dispatch hrun) False.elim hbare
  | tick j => exact hgoTo j _ .loop (fun _ _ h ↦ h) False.elim hbare
  | leave j => exact hstay j .closeFd False.elim hbare
  | next j env h' pc hjob hnext =>
      refine hgoTo j h'.broker pc ?_ ?_ hbare
      · rcases (noneOf_rule j).connStep hnext with hothers | hmarked
        · exact hothers
        · rw [connStep_marked hnext hmarked]
          exact fun _ _ h ↦ h
      · intro hpc
        rcases connStep_bare hnext hpc with ⟨hb, htable⟩ | hnone
        · rw [htable]
          exact hs j hb
        · exact hnone
  | publish j env pub ack s' hpc hb =>
      rw [hbegin hb]
      rw [(begin_frame hb).1] at hbare
      exact hstay j (.reply ack) False.elim hbare
  | will j env s' hpc hwill hb =>
      rw [hbegin hb]
      rw [(begin_frame hb).1] at hbare
      exact hstay j .clearWill False.elim hbare
  | foreign t env pub s' hjob hb =>
      rw [hbegin hb]
      rw [(begin_frame hb).1] at hbare
      exact hs k hbare
  | send | offline => exact hs k hbare

/-- A slot whose thread has not got to subscribing yet, or is done, has no subscription. -/
theorem bare_of_reach [Inhabited κ] {C : Threads cfg κ σ → ThreadEvent κ σ → Prop}
    (h : ReachBy C s) : ∀ k, (s.conn k).Bare → s.broker.table.NoneOf k := by
  induction h with
  | init => exact fun _ _ _ hi ↦ nomatch hi
  | step h _ hstep ih => exact bare_step (settled_of_reach h).free ih hstep

/-- The lists of the table are linked in every state. -/
theorem isLinked_of_reach [Inhabited κ] {C : Threads cfg κ σ → ThreadEvent κ σ → Prop}
    (h : ReachBy C s) : s.broker.table.IsLinked := by
  induction h with
  | init => exact TopicTable.isLinked_init
  | step h _ hstep ih =>
      rcases ThreadRule.step isLinked_rule hstep with hkept | ⟨j, fd, rfl⟩ | ⟨j, env, rfl, hmarked⟩
      · exact hkept ih
      · cases step_cases hstep with
        | alloc => exact ih
      · cases step_cases hstep with
        | next _ _ h' pc hjob hnext =>
            rw [goTo_broker, connStep_marked hnext hmarked]
            exact ih

theorem Owned.jobs_step (hs : s.Owned) (hkept : s.SlotsKept e) (h : s.step e = some s')
    (who : κ ⊕ σ) (job : PublishJob cfg κ) (hjob : s'.jobs who = some job) (op : SendOp κ)
    (hop : op ∈ job.ops) :
    job.table.Serves job.pub.topic op.client ∧ s'.gen op.client = job.gens op.client := by
  have hbegin : ∀ {a : Threads cfg κ σ} {who' : κ ⊕ σ} {env : Env κ} {pub : MqttPublish},
      a.jobs = s.jobs → a.gen = s.gen → a.begin who' env pub = some s' →
      job.table.Serves job.pub.topic op.client ∧ s'.gen op.client = job.gens op.client := by
    intro a who' env pub hjobs hgen hb
    obtain ⟨r, hlocked, rfl⟩ := Option.map_eq_some_iff.mp hb
    dsimp only at hjob ⊢
    by_cases hw : who = who'
    · subst hw
      rw [Function.update_self] at hjob
      obtain ⟨ops, hops, rfl⟩ := Option.map_eq_some_iff.mp hjob
      exact ⟨(publishLocked_serve hlocked).2 ops hops op hop, rfl⟩
    · rw [Function.update_of_ne hw, hjobs] at hjob
      rw [hgen]
      exact hs.jobs who job hjob op hop
  cases step_cases h with
  | alloc k fd =>
      obtain ⟨hserve, hgen⟩ := hs.jobs who job hjob op hop
      refine ⟨hserve, ?_⟩
      have hne := hkept k fd rfl who job hjob op hop
      exact (Function.update_of_ne hne _ _).trans hgen
  | publish k env pub ack s' hpc hb =>
      exact hbegin (a := s.goTo k s.broker (.reply ack)) rfl rfl hb
  | will k env s' hpc hwill hb =>
      exact hbegin (a := s.goTo k s.broker .clearWill) rfl rfl hb
  | foreign t env pub s' hfree hb => exact hbegin rfl rfl hb
  | send who' env pub op' ops table gens hjob' =>
      dsimp only at hjob ⊢
      by_cases hw : who = who'
      · subst hw
        rw [Function.update_self] at hjob
        obtain rfl := Option.some.inj hjob
        exact hs.jobs who _ hjob' op (List.mem_cons_of_mem op' hop)
      · rw [Function.update_of_ne hw] at hjob
        exact hs.jobs who job hjob op hop
  | offline who' pub table gens hjob' =>
      dsimp only at hjob ⊢
      by_cases hw : who = who'
      · subst hw
        rw [Function.update_self] at hjob
        cases hjob
      · rw [Function.update_of_ne hw] at hjob
        exact hs.jobs who job hjob op hop
  | _ => exact hs.jobs who job hjob op hop

/-- The step lemma: pending work stays with its connections. -/
theorem Owned.step [Inhabited κ] (hs : s.Owned) (hkept : s.SlotsKept e)
    (h : s.step e = some s') : s'.Owned :=
  ⟨hs.free_step h, bare_step hs.free hs.bare h, hs.jobs_step hkept h⟩

end Threads

namespace Sample

open Threads

/-- A QoS 1 message to `t`. -/
def toT : MqttPublish := ⟨[0x74], [0x31], 1, 0, 0, 0⟩

/-- Slot 0 is allocated, connects and subscribes to `t`, and the targets of a
message to it are collected. -/
def collected : List (ThreadEvent ℕ Unit) :=
  .connect 0 env connectPkt :: List.replicate 6 (.next 0 env) ++
    [.packet 0 env subscribePkt, .next 0 env, .foreign () env toT]

end Sample

end MqttBroker
