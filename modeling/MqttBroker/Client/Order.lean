import MqttBroker.Client.Conversation
import MqttBroker.Topic.FanOut

/-!
# Messages of one publisher stay in order

A thread that publishes sends to all targets of a call before it begins the next
one.  Whatever the other threads do, its frames leave in the order of its calls,
and each call sends to the holders of a matching subscription at the time its
targets were collected.
-/

namespace MqttBroker

variable {cfg : Config} {κ σ : Type}

/-! ## The sends of a call -/

/-- The call of `client_send` of a step. -/
def SendOp.sent? : SendOp κ → Option (κ × Bytes)
  | .send c frame => some (c, frame)
  | .store _ _ _ _ => none

/-- A call of `topic_publish_internal` that has collected its targets. -/
structure TopicCall (cfg : Config) (κ : Type) where
  pub : MqttPublish
  /-- the table at that time -/
  table : TopicTable cfg κ
  ops : List (SendOp κ)

/-- The frames a call sends, in order. -/
def TopicCall.sends (call : TopicCall cfg κ) : List (κ × Bytes) := call.ops.filterMap SendOp.sent?

/-- What a job has still to send. -/
def PublishJob.unsent (job : PublishJob cfg κ) : List (κ × Bytes) := job.ops.filterMap SendOp.sent?

section

variable [DecidableEq κ]

theorem foldl_deliverQos_sends (env : Env κ) (pub : MqttPublish) (targets : List (DeliveryTarget κ))
    (r : (κ → Client) × List (κ × Bytes)) :
    (targets.foldl (deliverQos env pub) r).2 =
      r.2 ++ (targets.flatMap (targetOps pub)).filterMap SendOp.sent? := by
  induction targets generalizing r with
  | nil => simp
  | cons target targets ih =>
      have hone : (deliverQos env pub r target).2 =
          r.2 ++ (targetOps pub target).filterMap SendOp.sent? := by
        unfold deliverQos targetOps
        dsimp only
        cases packetBuildPublish (targetPublish pub target) (MQTT_MAX_PACKET_SIZE + 8) with
        | none => simp
        | some buf => split_ifs <;> simp [SendOp.sent?]
      rw [List.foldl_cons, ih, hone, List.flatMap_cons, List.filterMap_append, List.append_assoc]

/-- The steps of a fan-out send what the fan-out sends. -/
theorem topicFanOut_sends (env : Env κ) (t : TopicTable cfg κ) (clients : κ → Client)
    (pub : MqttPublish) : (topicFanOut env t clients pub).map Prod.snd =
      (fanOutOps t clients pub).map fun r ↦ r.2.filterMap SendOp.sent? := by
  unfold topicFanOut fanOutOps
  split_ifs
  · unfold topicPublishQos0 qos0Ops
    cases hits t pub.topic with
    | none => rfl
    | some slots =>
        simp only [Option.bind_eq_bind, Option.bind_some]
        cases packetBuildPublish _ (MQTT_MAX_PACKET_SIZE + 8) with
        | none => rfl
        | some frame => simp [List.filterMap_map, Function.comp_def, SendOp.sent?]
  · unfold topicPublishQos qosOps
    cases hits t pub.topic with
    | none => rfl
    | some slots =>
        simp only [Option.bind_eq_bind, Option.bind_some, Option.map_some]
        rw [foldl_deliverQos_sends]
        rfl

/-- The call collected its targets in a linked table. -/
def TopicCall.Collected (call : TopicCall cfg κ) : Prop :=
  call.table.IsLinked ∧ ∃ clients clients', fanOutOps call.table clients call.pub =
    some (clients', call.ops)

/-- A valid message goes to the holders of a matching subscription, once to each. -/
theorem TopicCall.Collected.delivers {call : TopicCall cfg κ} (h : call.Collected)
    (hfits : call.pub.Fits) (hne : call.pub.topic ≠ []) (hplain : hasWildcard call.pub.topic = false)
    (hqos : call.pub.qos ≤ 2) : DeliversExactly call.table call.pub call.sends := by
  obtain ⟨hlinked, clients, clients', hops⟩ := h
  let env : Env κ := ⟨0, true, fun _ ↦ true⟩
  obtain ⟨r, hr, hdelivers⟩ :=
    topicFanOut_delivers hlinked env clients hfits hne hplain (Or.inl hqos)
  have hsends := topicFanOut_sends env call.table clients call.pub
  rw [hr, hops] at hsends
  have heq : r.2 = call.sends := Option.some.inj hsends
  rwa [heq] at hdelivers

end

/-! ## The observer -/

/-- What an observer notes about one thread that publishes. -/
structure Outbox (cfg : Config) (κ : Type) where
  /-- the calls that have collected their targets -/
  calls : List (TopicCall cfg κ) := []
  /-- the frames passed to `client_send`, and for whom -/
  sent : List (κ × Bytes) := []

namespace Threads

/-- What thread `who` has still to send for its call. -/
def unsent (s : Threads cfg κ σ) (who : κ ⊕ σ) : List (κ × Bytes) :=
  match s.jobs who with
  | some job => job.unsent
  | none => []

variable [DecidableEq κ]

/-- The message that a step publishes. -/
def publishes (s : Threads cfg κ σ) : ThreadEvent κ σ → Option ((κ ⊕ σ) × Env κ × MqttPublish)
  | .publish k env =>
      match s.conn k with
      | .publish pub _ => some (.inl k, env, pub)
      | .will => some (.inl k, env, (s.broker.clients k).will)
      | _ => none
  | .foreign t env pub => some (.inr t, env, pub)
  | _ => none

/-- The call that begins with `pub`, if it gets to its targets. -/
def collectedCall (s : Threads cfg κ σ) (env : Env κ) (pub : MqttPublish) : List (TopicCall cfg κ) :=
  match publishLocked env s.broker pub with
  | some (_, some ops) => [⟨pub, s.broker.table, ops⟩]
  | _ => []

variable [DecidableEq σ]

/-- The call of thread `who` whose targets a step collects. -/
def collectedAt (s : Threads cfg κ σ) (who : κ ⊕ σ) (e : ThreadEvent κ σ) :
    List (TopicCall cfg κ) :=
  match s.publishes e with
  | some (w, env, pub) => if w = who then s.collectedCall env pub else []
  | none => []

/-- What thread `who` sends at a step of its call. -/
def sentAt (s : Threads cfg κ σ) (who : κ ⊕ σ) : ThreadEvent κ σ → List (κ × Bytes)
  | .send w _ =>
      if w = who then
        match s.jobs w with
        | some ⟨_, op :: _, _, _⟩ => op.sent?.toList
        | _ => []
      else []
  | _ => []

/-- The threads with what each of them publishes. -/
def outboxes (cfg : Config) (κ σ : Type) [DecidableEq κ] [DecidableEq σ] :
    Observer.System (Threads cfg κ σ) (ThreadEvent κ σ) (κ ⊕ σ → Outbox cfg κ) where
  step := step
  note s e n who :=
    ⟨(n who).calls ++ s.collectedAt who e, (n who).sent ++ s.sentAt who e⟩

variable {s s' : Threads cfg κ σ} {e : ThreadEvent κ σ}

theorem unsent_begin {a : Threads cfg κ σ} {w : κ ⊕ σ} {env : Env κ} {pub : MqttPublish}
    (hbroker : a.broker = s.broker) (hjobs : a.jobs = s.jobs) (hfree : s.jobs w = none)
    (h : a.begin w env pub = some s') (who : κ ⊕ σ) :
    s.unsent who ++ (if w = who then s.collectedCall env pub else []).flatMap TopicCall.sends =
      s'.unsent who := by
  obtain ⟨⟨b, ops⟩, hlocked, rfl⟩ := Option.map_eq_some_iff.mp h
  rw [hbroker] at hlocked
  by_cases hw : w = who
  · subst hw
    have hnone : s.unsent w = [] := by simp [unsent, hfree]
    rw [hnone, if_pos rfl]
    cases ops <;> simp [collectedCall, hlocked, unsent, PublishJob.unsent, TopicCall.sends]
  · have hkept : Function.update s.jobs w (ops.map fun ops ↦ ⟨pub, ops, s.broker.table, a.gen⟩) who =
        s.jobs who := Function.update_of_ne (Ne.symm hw) _ _
    simp [unsent, if_neg hw, hjobs, hbroker, hkept]

/-- What a step collects is either sent by it or left over. -/
theorem unsent_step (hs : s.Settled) (h : s.step e = some s') (who : κ ⊕ σ) :
    s.unsent who ++ (s.collectedAt who e).flatMap TopicCall.sends =
      s.sentAt who e ++ s'.unsent who := by
  have hquiet : ∀ k, s.conn k ≠ .clearWill → (∀ ack, s.conn k ≠ .reply ack) →
      s.jobs (.inl k) = none := by
    intro k hwill hreply
    by_contra hjob
    rcases hs.jobs k hjob with hpc | ⟨ack, hpc⟩
    · exact hwill hpc
    · exact hreply ack hpc
  cases step_cases h with
  | publish k env pub ack s' hpc hb =>
      have hfree := hquiet k (by simp [hpc]) (by simp [hpc])
      have hbegin := unsent_begin (s := s) (a := s.goTo k s.broker (.reply ack)) rfl rfl hfree hb who
      simpa [collectedAt, publishes, hpc, sentAt] using hbegin
  | will k env s' hpc hwill hb =>
      have hfree := hquiet k (by simp [hpc]) (by simp [hpc])
      have hbegin := unsent_begin (s := s) (a := s.goTo k s.broker .clearWill) rfl rfl hfree hb who
      simpa [collectedAt, publishes, hpc, sentAt] using hbegin
  | foreign t env pub s' hfree hb =>
      have hbegin := unsent_begin rfl rfl hfree hb who
      simpa [collectedAt, publishes, sentAt] using hbegin
  | send w env pub op ops table gens hjob =>
      by_cases hw : w = who
      · subst hw
        cases hop : op.sent? <;>
          simp [collectedAt, publishes, sentAt, unsent, hjob, PublishJob.unsent, hop]
      · have hkept : ∀ job, Function.update s.jobs w job who = s.jobs who :=
          fun job ↦ Function.update_of_ne (Ne.symm hw) _ _
        simp [collectedAt, publishes, sentAt, unsent, hw, hkept]
  | offline w pub table gens hjob =>
      by_cases hw : w = who
      · subst hw
        simp [collectedAt, publishes, sentAt, unsent, hjob, PublishJob.unsent]
      · have hkept : Function.update s.jobs w none who = s.jobs who :=
          Function.update_of_ne (Ne.symm hw) _ _
        simp [collectedAt, publishes, sentAt, unsent, hkept]
  | _ => simp [collectedAt, publishes, sentAt, unsent, goTo]

theorem collectedAt_collected (hlinked : s.broker.table.IsLinked) (who : κ ⊕ σ)
    (e : ThreadEvent κ σ) : ∀ call ∈ s.collectedAt who e, call.Collected := by
  intro call hcall
  unfold collectedAt at hcall
  split at hcall
  · rename_i w env pub hpub
    split_ifs at hcall
    · unfold collectedCall at hcall
      split at hcall
      · rename_i b ops hlocked
        obtain rfl := List.mem_singleton.mp hcall
        refine ⟨hlinked, s.broker.clients, b.clients, ?_⟩
        unfold publishLocked at hlocked
        split at hlocked
        · cases hlocked
        · obtain ⟨r, hops, heq⟩ := Option.map_eq_some_iff.mp hlocked
          cases heq
          exact hops
      · simp at hcall
    · simp at hcall
  · simp at hcall

/-- In every reachable state the frames that a thread has sent, and those it has
still to send for its present call, are those of its calls in order; a valid
message went out once to each holder of a matching subscription, and a
connection's thread goes on only when all of it is sent. -/
theorem calls_in_order [Inhabited κ] {n : κ ⊕ σ → Outbox cfg κ}
    (h : Observer.Reach (outboxes cfg κ σ) (fun _ _ _ ↦ True) (init cfg κ σ) (fun _ ↦ {}) s n)
    (who : κ ⊕ σ) :
    (n who).sent ++ s.unsent who = (n who).calls.flatMap TopicCall.sends ∧
      (∀ call ∈ (n who).calls, call.pub.Fits → call.pub.topic ≠ [] →
        hasWildcard call.pub.topic = false → call.pub.qos ≤ 2 →
          DeliversExactly call.table call.pub call.sends) ∧
      ∀ k, who = .inl k → s.unsent who ≠ [] → s.conn k = .clearWill ∨ ∃ ack, s.conn k = .reply ack := by
  have hinv : ((n who).sent ++ s.unsent who = (n who).calls.flatMap TopicCall.sends ∧
      ∀ call ∈ (n who).calls, call.Collected) ∧ ReachBy (fun _ _ ↦ True) s := by
    apply h.invariant (I := fun s n ↦
      ((n who).sent ++ s.unsent who = (n who).calls.flatMap TopicCall.sends ∧
        ∀ call ∈ (n who).calls, call.Collected) ∧ ReachBy (fun _ _ ↦ True) s)
    · exact ⟨⟨rfl, by simp⟩, .init⟩
    · intro s n e s' _ hI _ hstep
      obtain ⟨⟨hsent, hcollected⟩, hreach⟩ := hI
      have hunsent := unsent_step (settled_of_reach hreach) hstep who
      refine ⟨⟨?_, fun call hcall ↦ ?_⟩, hreach.step trivial hstep⟩
      · calc ((n who).sent ++ s.sentAt who e) ++ s'.unsent who
            = (n who).sent ++ (s.unsent who ++ (s.collectedAt who e).flatMap TopicCall.sends) := by
              rw [hunsent, List.append_assoc]
          _ = ((n who).calls ++ s.collectedAt who e).flatMap TopicCall.sends := by
              rw [List.flatMap_append, ← hsent, List.append_assoc]
      · rcases List.mem_append.mp hcall with hold | hnew
        · exact hcollected call hold
        · exact collectedAt_collected (isLinked_of_reach hreach) who e call hnew
  obtain ⟨⟨hsent, hcollected⟩, hreach⟩ := hinv
  refine ⟨hsent, fun call hcall hfits hne hplain hqos ↦ ?_, fun k hwho hleft ↦ ?_⟩
  · exact (hcollected call hcall).delivers hfits hne hplain hqos
  · apply (settled_of_reach hreach).jobs k
    intro hjob
    apply hleft
    rw [hwho]
    simp [unsent, hjob]

end Threads

namespace Sample

/-- A subscriber of `t` is there, and another thread publishes to it. -/
def outboxEnd : Option (Threads Config.posix ℕ Unit × (ℕ ⊕ Unit → Outbox Config.posix ℕ)) :=
  Observer.run (Threads.outboxes Config.posix ℕ Unit) (Threads.init _ _ _, fun _ ↦ {}) greetedEvents

end Sample

/-- The statement where the only call has been sent to its only target. -/
theorem calls_in_order_one : ∃ (s : Threads Config.posix ℕ Unit)
    (n : ℕ ⊕ Unit → Outbox Config.posix ℕ), Sample.outboxEnd = some (s, n) ∧
      (n (.inr ())).sent.map Prod.fst = [0] ∧ (n (.inr ())).calls.length = 1 ∧
      (n (.inr ())).sent ++ s.unsent (.inr ()) =
        (n (.inr ())).calls.flatMap TopicCall.sends := by
  have hrun : Sample.outboxEnd.isSome = true := by decide
  obtain ⟨⟨s, n⟩, hend⟩ := Option.isSome_iff_exists.mp hrun
  have hat : Sample.outboxEnd.map (fun r ↦
      ((r.2 (.inr ())).sent.map Prod.fst, (r.2 (.inr ())).calls.length)) = some ([0], 1) := rfl
  rw [hend] at hat
  obtain ⟨hsent, hcalls⟩ := Prod.mk.inj (Option.some.inj hat)
  have hreach := Observer.Reach.start.run (fun _ _ _ _ ↦ trivial) hend
  exact ⟨s, n, hend, hsent, hcalls, (Threads.calls_in_order hreach (.inr ())).1⟩

end MqttBroker
