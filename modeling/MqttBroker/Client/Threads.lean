import MqttBroker.Client.Rules

/-!
# Connections as threads

Every connection has a thread that runs `client_thread_fn`, and the receive
threads of P2P and the dashboard publish as well.  A step is one section under
a lock or one assignment outside of them; the packets that publish nothing are
handled in one step.
-/

namespace MqttBroker

variable {cfg : Config} {κ σ : Type}

/-! ## A publish in steps -/

/-- What a publish still has to do for its targets once `topic_lock` is released. -/
inductive SendOp (κ : Type) where
  | send (client : κ) (frame : Bytes)
  | store (client : κ) (id : UInt16) (frame : Bytes) (qos : UInt8)
  deriving DecidableEq

def SendOp.client : SendOp κ → κ
  | send c _ => c
  | store c _ _ _ => c

/-- One call of `topic_publish_internal` after its section under `topic_lock`. -/
structure PublishJob (cfg : Config) (κ : Type) where
  pub : MqttPublish
  ops : List (SendOp κ)
  /-- ghost: the table when the targets were collected -/
  table : TopicTable cfg κ
  /-- ghost: the connections in the pool's slots at that time -/
  gens : κ → ℕ

section

variable [DecidableEq κ]

def SendOp.run (env : Env κ) (clients : κ → Client) : SendOp κ → κ → Client
  | send c _ => Function.update clients c ((clients c).clientSend (env.sendOk c))
  | store c id frame qos =>
      Function.update clients c ((clients c).inflightStore id frame qos env.now)

/-- The frame that `topic_publish_qos0_locked` shares between its targets. -/
def qos0Ops (t : TopicTable cfg κ) (pub : MqttPublish) : Option (List (SendOp κ)) := do
  let slots ← hits t pub.topic
  match packetBuildPublish { pub with retain := 0, packetId := 0 }
      (MQTT_MAX_PACKET_SIZE + 8) with
  | none => some []
  | some frame => some ((slots.foldl (addTarget t) []).map (.send · frame))

/-- One round of the delivery loop of `topic_publish_qos_locked`. -/
def targetOps (pub : MqttPublish) (target : DeliveryTarget κ) : List (SendOp κ) :=
  let out := targetPublish pub target
  match packetBuildPublish out (MQTT_MAX_PACKET_SIZE + 8) with
  | none => []
  | some buf =>
      .send target.client buf ::
        if 0 < out.qos then [.store target.client out.packetId buf out.qos] else []

def qosOps (t : TopicTable cfg κ) (clients : κ → Client) (pub : MqttPublish) :
    Option ((κ → Client) × List (SendOp κ)) := do
  let slots ← hits t pub.topic
  let st := slots.foldl (collectQos t pub) ⟨[], [], clients⟩
  some (st.clients, st.targets.flatMap (targetOps pub))

/-- The connections after the targets are collected, and what is left to do. -/
def fanOutOps (t : TopicTable cfg κ) (clients : κ → Client) (pub : MqttPublish) :
    Option ((κ → Client) × List (SendOp κ)) :=
  if pub.qos = 0 then (qos0Ops t pub).map (clients, ·) else qosOps t clients pub

/-- `topic_publish_internal` up to the release of `topic_lock`; no list of steps
is left if it returns an error there. -/
def publishLocked (env : Env κ) (b : Broker cfg κ) (pub : MqttPublish) :
    Option (Broker cfg κ × Option (List (SendOp κ))) :=
  match retainPublish b.retains env.callocOk pub with
  | none => some (b, none)
  | some retains =>
      (fanOutOps b.table b.clients pub).map fun r ↦
        ({ b with retains := retains, clients := r.1 }, some r.2)

/-- Collecting the targets is a sending in which nothing is sent yet. -/
theorem SendRule.locked {P : MqttPublish → Prop} {R : Client → Client → Prop} (hR : SendRule P R)
    {env : Env κ} {b : Broker cfg κ} {pub : MqttPublish}
    {r : Broker cfg κ × Option (List (SendOp κ))} (h : publishLocked env b pub = some r) (j : κ) :
    R (b.clients j) (r.1.clients j) := by
  unfold publishLocked at h
  split at h
  · cases h
    exact hR.refl _
  · obtain ⟨⟨clients, ops⟩, hops, rfl⟩ := Option.map_eq_some_iff.mp h
    unfold fanOutOps at hops
    split_ifs at hops
    · obtain ⟨ops', -, heq⟩ := Option.map_eq_some_iff.mp hops
      cases heq
      exact hR.refl _
    · obtain ⟨slots, -, heq⟩ := Option.bind_eq_some_iff.mp hops
      cases heq
      exact hR.collect b.table pub slots ⟨[], [], b.clients⟩ j

theorem foldl_targetOps (env : Env κ) (pub : MqttPublish) (targets : List (DeliveryTarget κ))
    (r : (κ → Client) × List (κ × Bytes)) :
    (targets.foldl (deliverQos env pub) r).1 =
      (targets.flatMap (targetOps pub)).foldl (SendOp.run env) r.1 := by
  induction targets generalizing r with
  | nil => rfl
  | cons target targets ih =>
      rw [List.foldl_cons, ih, List.flatMap_cons, List.foldl_append]
      congr 1
      unfold deliverQos targetOps
      dsimp only
      cases packetBuildPublish (targetPublish pub target) (MQTT_MAX_PACKET_SIZE + 8) with
      | none => rfl
      | some buf =>
          dsimp only
          unfold Client.sendAndStore
          split_ifs
          · simp [SendOp.run]
          · rfl

/-- Sending in steps sends what the fan-out sends. -/
theorem topicFanOut_eq_ops (env : Env κ) (t : TopicTable cfg κ) (clients : κ → Client)
    (pub : MqttPublish) : (topicFanOut env t clients pub).map Prod.fst =
      (fanOutOps t clients pub).map fun r ↦ r.2.foldl (SendOp.run env) r.1 := by
  unfold topicFanOut fanOutOps
  split_ifs
  · unfold topicPublishQos0 qos0Ops
    cases hits t pub.topic with
    | none => rfl
    | some slots =>
        simp only [Option.bind_eq_bind, Option.bind_some]
        cases packetBuildPublish _ (MQTT_MAX_PACKET_SIZE + 8) with
        | none => rfl
        | some frame => simp [List.foldl_map, sendShared, SendOp.run]
  · unfold topicPublishQos qosOps
    cases hits t pub.topic with
    | none => rfl
    | some slots =>
        simp only [Option.bind_eq_bind, Option.bind_some, Option.map_some]
        rw [foldl_targetOps]

end

/-! ## Where a connection's thread stands -/

inductive ConnPc (cfg : Config) where
  | idle
  /-- before the first packet -/
  | waiting
  /-- in `handle_connect`, before `client_takeover` -/
  | takeover (conn : MqttConnect)
  | assignId (conn : MqttConnect)
  | assignRest (conn : MqttConnect)
  | openSession (conn : MqttConnect)
  | connack (sess : Option (SessionSlot cfg)) (present : Bool)
  | restore (s : SessionSlot cfg) (i : ℕ)
  | online (s : SessionSlot cfg)
  | drain (s : SessionSlot cfg)
  /-- before the test of the loop of `client_thread_fn` -/
  | loop
  | recv
  /-- in `handle_publish`, before `topic_publish` -/
  | publish (pub : MqttPublish) (ack : Option Bytes)
  | reply (ack : Option Bytes)
  /-- at the start of `client_free` -/
  | closeFd
  | will
  | clearWill
  | collect
  | lookup (subs : List (CStr × UInt8))
  | saveSubs (s : SessionSlot cfg) (subs : List (CStr × UInt8))
  | saveInflight (s : SessionSlot cfg) (i : ℕ)
  | unsubscribe
  | delete
  | release

/-- `if (session_present && sess)` -/
def ConnPc.afterConnack : Option (SessionSlot cfg) → Bool → ConnPc cfg
  | some s, true => .restore s 0
  | _, _ => .loop

/-- `strncpy(c->client_id, ...)`, on an id that `client_alloc` has zeroed. -/
def Client.assignId (c : Client) (conn : MqttConnect) : Client :=
  { c with clientId := conn.clientId.take (MQTT_CLIENT_ID_MAX - 1) }

/-- The other assignments to `client_t`, which only the thread itself reads. -/
def Client.assignRest (c : Client) (conn : MqttConnect) : Client :=
  { c.connectFields conn with clientId := c.clientId }

theorem Client.assignRest_assignId (c : Client) (conn : MqttConnect) :
    (c.assignId conn).assignRest conn = c.connectFields conn := rfl

section

variable [DecidableEq κ]

/-- One section of `topic_unsubscribe_all` under `topic_lock`; `none` in the
second place after the last one. -/
def unsubscribeSection (t : TopicTable cfg κ) (c : κ) :
    Option (TopicTable cfg κ × Option (List Notify)) :=
  if cfg.p2pDynamic then
    match (List.finRange cfg.topicMaxSubs).find? fun i ↦
        (t.subs i).inUse && (t.subs i).client = c with
    | none => some (t, none)
    | some i => do
        let removed := (t.subs i).filter
        let old := t.filterStats removed
        let t' ← t.removeSlot i
        let new := t'.filterStats removed
        some (t', some
          (if 0 < old.1 ∧ new.1 = 0 then [Notify.localUnsubscribe removed]
          else if 0 < new.1 ∧ new.2 ≠ old.2 then [Notify.localSubscribe removed new.2]
          else []))
  else (t.topicUnsubscribeAll c).map fun r ↦ (r.1, none)

/-- A section of `topic_unsubscribe_all` takes subscriptions of the client only,
and the last one has left none. -/
theorem unsubscribeSection_removed {t : TopicTable cfg κ} {c : κ}
    {r : TopicTable cfg κ × Option (List Notify)} (hrun : unsubscribeSection t c = some r) :
    t.Removed c r.1 ∧ (r.2 = none → r.1.NoneOf c) := by
  unfold unsubscribeSection at hrun
  split_ifs at hrun with hp
  · split at hrun
    · rename_i hnone
      obtain rfl := Option.some.inj hrun
      refine ⟨.refl t c, fun _ i ↦ ?_⟩
      simpa using List.find?_eq_none.mp hnone i (List.mem_finRange i)
    · rename_i i hfind
      obtain ⟨t', hremove, hrun⟩ := Option.bind_eq_some_iff.mp hrun
      obtain rfl := Option.some.inj hrun
      have hi := List.find?_some hfind
      simp only [Bool.and_eq_true, decide_eq_true_eq] at hi
      exact ⟨TopicTable.removed_removeSlot hi.2 hremove, by simp⟩
  · obtain ⟨r', hall, rfl⟩ := Option.map_eq_some_iff.mp hrun
    rw [TopicTable.topicUnsubscribeAll, if_neg hp] at hall
    obtain ⟨t', hloop, hall⟩ := Option.bind_eq_some_iff.mp hall
    obtain rfl := Option.some.inj hall
    obtain ⟨hframe, hgone⟩ := TopicTable.foldlM_remove hloop
    exact ⟨hframe, fun _ i ↦ hgone i (List.mem_finRange i)⟩

theorem TopicTable.IsLinked.unsubscribeSection {t : TopicTable cfg κ} (h : t.IsLinked) {c : κ}
    {r : TopicTable cfg κ × Option (List Notify)} (hrun : unsubscribeSection t c = some r) :
    r.1.IsLinked := by
  unfold MqttBroker.unsubscribeSection at hrun
  split_ifs at hrun with hp
  · split at hrun
    · obtain rfl := Option.some.inj hrun
      exact h
    · rename_i i hfind
      obtain ⟨t', hremove, hrun⟩ := Option.bind_eq_some_iff.mp hrun
      obtain rfl := Option.some.inj hrun
      have hi := List.find?_some hfind
      simp only [Bool.and_eq_true] at hi
      obtain ⟨t'', hremove', hlinked, -⟩ := h.removeSlot hi.1
      obtain rfl := Option.some.inj (hremove.symm.trans hremove')
      exact hlinked
  · obtain ⟨r', hall, rfl⟩ := Option.map_eq_some_iff.mp hrun
    obtain ⟨r'', hall', hlinked⟩ := h.topicUnsubscribeAll c
    obtain rfl := Option.some.inj (hall.symm.trans hall')
    exact hlinked

/-- The next step of a thread in `handle_connect` or `client_free` that waits
for nothing. -/
def connStep (env : Env κ) (b : Broker cfg κ) (me : κ) :
    ConnPc cfg → Option (Handled cfg κ × ConnPc cfg)
  | .takeover conn => some (⟨clientTakeover b me conn.clientId, []⟩, .assignId conn)
  | .assignId conn => some (⟨b.updateClient me (·.assignId conn), []⟩, .assignRest conn)
  | .assignRest conn => some (⟨b.updateClient me (·.assignRest conn), []⟩, .openSession conn)
  | .openSession conn =>
      let r := connectSession b.sessions env.callocOk conn
      some (⟨{ b with sessions := r.1 }, []⟩, .connack r.2.1 r.2.2)
  | .connack sess present =>
      let h := Handled.reply env me
        (packetBuildConnack (if present then 1 else 0) Connack.accepted 4) ⟨b, []⟩
      some (h, .afterConnack sess present)
  | .restore s i =>
      if h : i < SESSION_SUB_MAX ∧ i < (b.session s).subCount then
        some (restoreOne me s ⟨b, []⟩ ⟨i, h.1⟩, .restore s (i + 1))
      else some (⟨b, []⟩, .online s)
  | .online s => some (markOnline s ⟨b, []⟩, .drain s)
  | .drain s => some (drainSession env me s ⟨b, []⟩, .loop)
  | .loop => some (⟨b, []⟩, if (b.clients me).state = .connected then .recv else .closeFd)
  | .reply ack => some (Handled.reply env me ack ⟨b, []⟩, .loop)
  | .closeFd => some (⟨b.updateClient me (·.closeFd), []⟩, .will)
  | .will => if (b.clients me).hasWill then none else some (⟨b, []⟩, .collect)
  | .clearWill =>
      some (⟨b.updateClient me fun c ↦ { c with hasWill := false }, []⟩, .collect)
  | .collect =>
      some (⟨b, []⟩, if (b.clients me).cleanSession then .unsubscribe
        else .lookup (b.table.topicGetClientSubs me SESSION_SUB_MAX))
  | .lookup subs =>
      let r := sessionFindOrCreate b.sessions env.callocOk (b.clients me).clientId
      some (⟨{ b with sessions := r.1 }, []⟩, match r.2.1 with
        | some s => .saveSubs s subs
        | none => .unsubscribe)
  | .saveSubs s subs => some (⟨b.updateSession s (·.saveSubs subs), []⟩, .saveInflight s 0)
  | .saveInflight s i =>
      if h : i < CLIENT_INFLIGHT_MAX then
        some (⟨b.updateSession s (·.saveInflight ((b.clients me).inflight ⟨i, h⟩)), []⟩,
          .saveInflight s (i + 1))
      else some (⟨b, []⟩, .unsubscribe)
  | .unsubscribe =>
      (unsubscribeSection b.table me).map fun r ↦
        (⟨{ b with table := r.1 }, (r.2.getD []).map .notify⟩,
          if r.2.isSome then .unsubscribe else .delete)
  | .delete =>
      let c := b.clients me
      some (⟨if c.cleanSession then { b with sessions := sessionDelete b.sessions c.clientId }
        else b, []⟩, .release)
  | .release => some (⟨b.updateClient me fun c ↦ { c with state := .free }, []⟩, .idle)
  | .idle | .waiting | .recv | .publish _ _ => none

/-- What handling a packet that calls `topic_publish` does before: the broker,
the message, and the acknowledgement to send after. -/
def publishBegin (env : Env κ) (b : Broker cfg κ) (me : κ) (pkt : MqttPacket) :
    Option (Broker cfg κ × MqttPublish × Option Bytes) :=
  if !pkt.headerOk ∨ pkt.type ≠ PacketType.publish then none
  else
    match packetParsePublish pkt with
    | none => none
    | some pub =>
        let b := b.updateClient me fun c ↦ { c with lastSeenMs := env.now }
        if pub.qos = 3 ∨ (pub.topic = [] ∨ hasWildcard pub.topic) ∨
            0 < pub.qos ∧ pub.packetId = 0 then none
        else if pub.qos = 2 then
          match (b.clients me).qos2In.slot pub.packetId with
          | .free i =>
              some (b.updateClient me (·.qos2Store i pub.packetId), pub,
                packetBuildPubrec pub.packetId 4)
          | .dup => none
          | .full => none
        else some (b, pub, if pub.qos = 1 then packetBuildPuback pub.packetId 4 else none)

end

theorem publishBegin_header [DecidableEq κ] {env : Env κ} {b : Broker cfg κ} {me : κ}
    {pkt : MqttPacket} {r : Broker cfg κ × MqttPublish × Option Bytes}
    (h : publishBegin env b me pkt = some r) :
    pkt.headerOk = true ∧ pkt.type = PacketType.publish := by
  rcases ite_eq_iff.mp h with ⟨-, h⟩ | ⟨hgo, -⟩
  · cases h
  · simpa [not_or] using hgo

/-! ## All threads -/

/-- The broker and its threads: one for each slot of the pool, and the others
that publish. -/
structure Threads (cfg : Config) (κ σ : Type) where
  broker : Broker cfg κ
  conn : κ → ConnPc cfg
  /-- the calls of `topic_publish_internal` that have released `topic_lock` -/
  jobs : κ ⊕ σ → Option (PublishJob cfg κ)
  /-- ghost: how often `client_alloc` has taken each slot -/
  gen : κ → ℕ

inductive ThreadEvent (κ σ : Type) where
  | alloc (k : κ) (fd : ℤ)
  /-- the first packet -/
  | connect (k : κ) (env : Env κ) (pkt : MqttPacket)
  | packet (k : κ) (env : Env κ) (pkt : MqttPacket)
  /-- a receive timeout -/
  | tick (k : κ) (env : Env κ)
  /-- the receiving fails, or the keepalive time has passed -/
  | leave (k : κ)
  | next (k : κ) (env : Env κ)
  | publish (k : κ) (env : Env κ)
  | foreign (t : σ) (env : Env κ) (pub : MqttPublish)
  | send (who : κ ⊕ σ) (env : Env κ)
  | offline (who : κ ⊕ σ)

namespace Threads

/-- The state at the start of the program. -/
def init (cfg : Config) (κ σ : Type) [Inhabited κ] : Threads cfg κ σ where
  broker := ⟨topicInit cfg κ, none, fun _ ↦ default, none⟩
  conn _ := .idle
  jobs _ := none
  gen _ := 0

variable [DecidableEq κ]

/-- Thread `k` has changed the broker and goes on at `pc`. -/
def goTo (s : Threads cfg κ σ) (k : κ) (b : Broker cfg κ) (pc : ConnPc cfg) : Threads cfg κ σ :=
  { s with broker := b, conn := Function.update s.conn k pc }

@[simp] theorem goTo_broker (s : Threads cfg κ σ) (k : κ) (b : Broker cfg κ) (pc : ConnPc cfg) :
    (s.goTo k b pc).broker = b := rfl

@[simp] theorem goTo_jobs (s : Threads cfg κ σ) (k : κ) (b : Broker cfg κ) (pc : ConnPc cfg) :
    (s.goTo k b pc).jobs = s.jobs := rfl

@[simp] theorem goTo_conn (s : Threads cfg κ σ) (k : κ) (b : Broker cfg κ) (pc : ConnPc cfg) :
    (s.goTo k b pc).conn k = pc := by simp [goTo]

@[simp] theorem goTo_goTo (s : Threads cfg κ σ) (k : κ) (b b' : Broker cfg κ)
    (pc pc' : ConnPc cfg) : (s.goTo k b pc).goTo k b' pc' = s.goTo k b' pc' := by simp [goTo]

variable [DecidableEq σ]

/-- A call of `topic_publish_internal` begins. -/
def begin (s : Threads cfg κ σ) (who : κ ⊕ σ) (env : Env κ) (pub : MqttPublish) :
    Option (Threads cfg κ σ) :=
  (publishLocked env s.broker pub).map fun r ↦
    { s with
      broker := r.1
      jobs := Function.update s.jobs who (r.2.map fun ops ↦ ⟨pub, ops, s.broker.table, s.gen⟩) }

theorem begin_frame {s s' : Threads cfg κ σ} {who : κ ⊕ σ} {env : Env κ} {pub : MqttPublish}
    (h : s.begin who env pub = some s') : s'.conn = s.conn ∧ s'.gen = s.gen := by
  obtain ⟨r, -, rfl⟩ := Option.map_eq_some_iff.mp h
  exact ⟨rfl, rfl⟩

/-- One step of the threads; `none` if it is not possible. -/
def step (s : Threads cfg κ σ) : ThreadEvent κ σ → Option (Threads cfg κ σ)
  | .alloc k fd =>
      if (s.broker.clients k).state = .free then
        some { s.goTo k (clientAlloc s.broker k fd) .waiting with
          gen := Function.update s.gen k (s.gen k + 1) }
      else none
  | .connect k env pkt =>
      match s.conn k with
      | .waiting =>
          if pkt.typeFlags ≠ PacketType.connect then some (s.goTo k s.broker .closeFd)
          else
            match connectCheck cfg pkt with
            | .ok conn => some (s.goTo k s.broker (.takeover conn))
            | .error _ => some (s.goTo k (handleConnect env s.broker k pkt).broker .loop)
      | _ => none
  | .packet k env pkt =>
      match s.conn k with
      | .recv =>
          -- another thread may have taken the client id over during `recv_packet`
          if pkt.headerOk ∧ (s.broker.clients k).state ≠ .connected then
            some (s.goTo k (s.broker.updateClient k fun c ↦ { c with lastSeenMs := env.now }) .closeFd)
          else
            match publishBegin env s.broker k pkt with
            | some (b, pub, ack) => some (s.goTo k b (.publish pub ack))
            | none => (dispatch env s.broker k pkt).map fun h ↦ s.goTo k h.broker .loop
      | _ => none
  | .tick k env =>
      match s.conn k with
      | .recv =>
          let b := s.broker.updateClient k fun c ↦ (c.inflightRetry env.now (env.sendOk k)).1
          some (s.goTo k b .loop)
      | _ => none
  | .leave k =>
      match s.conn k with
      | .waiting => some (s.goTo k s.broker .closeFd)
      | .recv => some (s.goTo k s.broker .closeFd)
      | _ => none
  | .next k env =>
      if s.jobs (.inl k) = none then
        (connStep env s.broker k (s.conn k)).map fun r ↦ s.goTo k r.1.broker r.2
      else none
  | .publish k env =>
      match s.conn k with
      | .publish pub ack => (s.goTo k s.broker (.reply ack)).begin (.inl k) env pub
      | .will =>
          if (s.broker.clients k).hasWill then
            (s.goTo k s.broker .clearWill).begin (.inl k) env (s.broker.clients k).will
          else none
      | _ => none
  | .foreign t env pub => if s.jobs (.inr t) = none then s.begin (.inr t) env pub else none
  | .send who env =>
      match s.jobs who with
      | some ⟨pub, op :: ops, table, gens⟩ =>
          some { s with
            broker := { s.broker with clients := op.run env s.broker.clients }
            jobs := Function.update s.jobs who (some ⟨pub, ops, table, gens⟩) }
      | _ => none
  | .offline who =>
      match s.jobs who with
      | some ⟨pub, [], _, _⟩ =>
          some { s with
            broker := { s.broker with
              sessions := (sessionOfflinePublish s.broker.sessions pub topicMatch).1 }
            jobs := Function.update s.jobs who none }
      | _ => none

/-- Some thread takes a step. -/
def Step (s s' : Threads cfg κ σ) : Prop := ∃ e, s.step e = some s'

/-- The states of the runs whose steps all satisfy `C`. -/
inductive ReachBy [Inhabited κ] (C : Threads cfg κ σ → ThreadEvent κ σ → Prop) :
    Threads cfg κ σ → Prop where
  | init : ReachBy C (init cfg κ σ)
  | step {s s' : Threads cfg κ σ} {e : ThreadEvent κ σ} (h : ReachBy C s) (hc : C s e)
      (hstep : s.step e = some s') : ReachBy C s'

/-- A run given by its events. -/
def run (s : Threads cfg κ σ) (es : List (ThreadEvent κ σ)) : Option (Threads cfg κ σ) :=
  es.foldlM step s

theorem ReachBy.run [Inhabited κ] {C : Threads cfg κ σ → ThreadEvent κ σ → Prop}
    {es : List (ThreadEvent κ σ)} (hC : ∀ s, ∀ e ∈ es, C s e) {s s' : Threads cfg κ σ}
    (h : ReachBy C s) (hrun : s.run es = some s') : ReachBy C s' := by
  induction es generalizing s with
  | nil =>
      obtain rfl := Option.some.inj hrun
      exact h
  | cons e es ih =>
      obtain ⟨s₁, hstep, hrest⟩ := Option.bind_eq_some_iff.mp hrun
      exact ih (fun s e he ↦ hC s e (List.mem_cons_of_mem _ he))
        (h.step (hC s e List.mem_cons_self) hstep) hrest

/-- What a step does, by cases. -/
inductive StepCase (s : Threads cfg κ σ) : ThreadEvent κ σ → Threads cfg κ σ → Prop where
  | alloc (k : κ) (fd : ℤ) (hfree : (s.broker.clients k).state = .free) :
      StepCase s (.alloc k fd) { s.goTo k (clientAlloc s.broker k fd) .waiting with
        gen := Function.update s.gen k (s.gen k + 1) }
  | notConnect (k : κ) (env : Env κ) (pkt : MqttPacket) (hpc : s.conn k = .waiting)
      (htype : pkt.typeFlags ≠ PacketType.connect) :
      StepCase s (.connect k env pkt) (s.goTo k s.broker .closeFd)
  | connect (k : κ) (env : Env κ) (pkt : MqttPacket) (conn : MqttConnect)
      (hpc : s.conn k = .waiting) (hcheck : connectCheck cfg pkt = .ok conn)
      (htype : pkt.typeFlags = PacketType.connect) :
      StepCase s (.connect k env pkt) (s.goTo k s.broker (.takeover conn))
  | reject (k : κ) (env : Env κ) (pkt : MqttPacket) (code : Option UInt8)
      (hpc : s.conn k = .waiting) (hcheck : connectCheck cfg pkt = .error code)
      (htype : pkt.typeFlags = PacketType.connect) :
      StepCase s (.connect k env pkt) (s.goTo k (handleConnect env s.broker k pkt).broker .loop)
  | late (k : κ) (env : Env κ) (pkt : MqttPacket) (hpc : s.conn k = .recv)
      (hok : pkt.headerOk = true) (hstate : (s.broker.clients k).state ≠ .connected) :
      StepCase s (.packet k env pkt) (s.goTo k
        (s.broker.updateClient k fun c ↦ { c with lastSeenMs := env.now }) .closeFd)
  | publishPacket (k : κ) (env : Env κ) (pkt : MqttPacket) (b : Broker cfg κ) (pub : MqttPublish)
      (ack : Option Bytes) (hpc : s.conn k = .recv)
      (hbegin : publishBegin env s.broker k pkt = some (b, pub, ack))
      (hstate : (s.broker.clients k).state = .connected) :
      StepCase s (.packet k env pkt) (s.goTo k b (.publish pub ack))
  | packet (k : κ) (env : Env κ) (pkt : MqttPacket) (h : Handled cfg κ) (hpc : s.conn k = .recv)
      (hbegin : publishBegin env s.broker k pkt = none)
      (hrun : dispatch env s.broker k pkt = some h)
      (hstate : pkt.headerOk = true → (s.broker.clients k).state = .connected) :
      StepCase s (.packet k env pkt) (s.goTo k h.broker .loop)
  | tick (k : κ) (env : Env κ) (hpc : s.conn k = .recv) :
      StepCase s (.tick k env) (s.goTo k
        (s.broker.updateClient k fun c ↦ (c.inflightRetry env.now (env.sendOk k)).1) .loop)
  | leave (k : κ) (hpc : s.conn k = .waiting ∨ s.conn k = .recv) :
      StepCase s (.leave k) (s.goTo k s.broker .closeFd)
  | next (k : κ) (env : Env κ) (h : Handled cfg κ) (pc : ConnPc cfg)
      (hjob : s.jobs (.inl k) = none)
      (hnext : connStep env s.broker k (s.conn k) = some (h, pc)) :
      StepCase s (.next k env) (s.goTo k h.broker pc)
  | publish (k : κ) (env : Env κ) (pub : MqttPublish) (ack : Option Bytes) (s' : Threads cfg κ σ)
      (hpc : s.conn k = .publish pub ack)
      (hbegin : (s.goTo k s.broker (.reply ack)).begin (.inl k) env pub = some s') :
      StepCase s (.publish k env) s'
  | will (k : κ) (env : Env κ) (s' : Threads cfg κ σ) (hpc : s.conn k = .will)
      (hwill : (s.broker.clients k).hasWill = true)
      (hbegin : (s.goTo k s.broker .clearWill).begin (.inl k) env (s.broker.clients k).will =
        some s') : StepCase s (.publish k env) s'
  | foreign (t : σ) (env : Env κ) (pub : MqttPublish) (s' : Threads cfg κ σ)
      (hjob : s.jobs (.inr t) = none) (hbegin : s.begin (.inr t) env pub = some s') :
      StepCase s (.foreign t env pub) s'
  | send (who : κ ⊕ σ) (env : Env κ) (pub : MqttPublish) (op : SendOp κ)
      (ops : List (SendOp κ)) (table : TopicTable cfg κ) (gens : κ → ℕ)
      (hjob : s.jobs who = some ⟨pub, op :: ops, table, gens⟩) :
      StepCase s (.send who env) { s with
        broker := { s.broker with clients := op.run env s.broker.clients }
        jobs := Function.update s.jobs who (some ⟨pub, ops, table, gens⟩) }
  | offline (who : κ ⊕ σ) (pub : MqttPublish) (table : TopicTable cfg κ) (gens : κ → ℕ)
      (hjob : s.jobs who = some ⟨pub, [], table, gens⟩) :
      StepCase s (.offline who) { s with
        broker := { s.broker with
          sessions := (sessionOfflinePublish s.broker.sessions pub topicMatch).1 }
        jobs := Function.update s.jobs who none }

theorem step_cases {s s' : Threads cfg κ σ} {e : ThreadEvent κ σ} (h : s.step e = some s') :
    StepCase s e s' := by
  cases e with
  | alloc k fd =>
      simp only [step] at h
      split_ifs at h with hfree
      cases h
      exact .alloc k fd hfree
  | connect k env pkt =>
      simp only [step] at h
      split at h
      · rename_i hpc
        split_ifs at h with htype
        · cases h
          exact .notConnect k env pkt hpc htype
        · split at h
          · rename_i conn hcheck
            cases h
            exact .connect k env pkt conn hpc hcheck (not_not.mp htype)
          · rename_i code hcheck
            cases h
            exact .reject k env pkt code hpc hcheck (not_not.mp htype)
      · cases h
  | packet k env pkt =>
      simp only [step] at h
      split at h
      · rename_i hpc
        rcases ite_eq_iff.mp h with ⟨⟨hok, hstate⟩, h⟩ | ⟨hgo, h⟩
        · cases h
          exact .late k env pkt hpc hok hstate
        have hstate : pkt.headerOk = true → (s.broker.clients k).state = .connected :=
          fun hok ↦ not_not.mp fun hne ↦ hgo ⟨hok, hne⟩
        split at h
        · rename_i b pub ack hbegin
          cases h
          exact .publishPacket k env pkt b pub ack hpc hbegin (hstate (publishBegin_header hbegin).1)
        · rename_i hbegin
          obtain ⟨h', hrun, rfl⟩ := Option.map_eq_some_iff.mp h
          exact .packet k env pkt h' hpc hbegin hrun hstate
      · cases h
  | tick k env =>
      simp only [step] at h
      split at h
      · rename_i hpc
        cases h
        exact .tick k env hpc
      · cases h
  | leave k =>
      simp only [step] at h
      split at h
      · rename_i hpc
        cases h
        exact .leave k (Or.inl hpc)
      · rename_i hpc
        cases h
        exact .leave k (Or.inr hpc)
      · cases h
  | next k env =>
      simp only [step] at h
      split_ifs at h with hjob
      obtain ⟨⟨h', pc⟩, hnext, rfl⟩ := Option.map_eq_some_iff.mp h
      exact .next k env h' pc hjob hnext
  | publish k env =>
      simp only [step] at h
      split at h
      · rename_i pub ack hpc
        exact .publish k env pub ack s' hpc h
      · rename_i hpc
        split_ifs at h with hwill
        exact .will k env s' hpc hwill h
      · cases h
  | foreign t env pub =>
      simp only [step] at h
      split_ifs at h with hjob
      exact .foreign t env pub s' hjob h
  | send who env =>
      simp only [step] at h
      split at h
      · rename_i pub op ops table gens hjob
        cases h
        exact .send who env pub op ops table gens hjob
      · cases h
  | offline who =>
      simp only [step] at h
      split at h
      · rename_i pub table gens hjob
        cases h
        exact .offline who pub table gens hjob
      · cases h

end Threads

/-! ## A rule for the steps -/

/-- A thread's next step begins or ends the time in which it has a client id. -/
def ConnPc.Marked : ConnPc cfg → Prop
  | .takeover _ | .assignId _ | .release => True
  | _ => False

/-- The changes that the steps of thread `me` are made of are in `R`, up to those
that begin and end a connection or take over its client id. -/
structure ThreadRule [DecidableEq κ] (me : κ) (R : Broker cfg κ → Broker cfg κ → Prop) : Prop
    extends ConnectRule me R where
  retry : ∀ b now sendOk, R b (b.updateClient me fun c ↦ (c.inflightRetry now sendOk).1)
  assignRest : ∀ b conn, R b (b.updateClient me (·.assignRest conn))
  closeFd : ∀ b, R b (b.updateClient me (·.closeFd))
  unsubscribeSection : ∀ b r, unsubscribeSection b.table me = some r → R b { b with table := r.1 }
  locked : ∀ {env b pub r}, publishLocked env b pub = some r → R b r.1
  op : ∀ env b (op : SendOp κ), R b { b with clients := op.run env b.clients }

namespace ThreadRule

variable [DecidableEq κ] {me : κ} {R : Broker cfg κ → Broker cfg κ → Prop} (hR : ThreadRule me R)

include hR

/-- The other steps of `connStep`. -/
theorem connStep {env : Env κ} {b : Broker cfg κ} {pc pc' : ConnPc cfg} {h : Handled cfg κ}
    (hnext : connStep env b me pc = some (h, pc')) : R b h.broker ∨ pc.Marked := by
  cases pc with
  | takeover | assignId | release => exact Or.inr trivial
  | assignRest conn => cases hnext; exact Or.inl (hR.assignRest b conn)
  | openSession conn => cases hnext; exact Or.inl (hR.sessions b _)
  | connack sess present => cases hnext; exact Or.inl (hR.reply env _ ⟨b, []⟩)
  | restore s i =>
      refine Or.inl ?_
      simp only [MqttBroker.connStep] at hnext
      split at hnext
      · cases hnext
        unfold restoreOne
        split_ifs
        · exact hR.restore b _ _
        · exact hR.refl b
      · cases hnext
        exact hR.refl b
  | online s => cases hnext; exact Or.inl (hR.updateSession b s fun x ↦ { x with offline := false })
  | drain s =>
      cases hnext
      exact Or.inl (hR.trans (hR.updateSession b s fun _ ↦ _)
        (hR.drain _ (b.session s) env.now (env.sendOk me)))
  | loop => cases hnext; exact Or.inl (hR.refl b)
  | reply ack => cases hnext; exact Or.inl (hR.reply env ack ⟨b, []⟩)
  | closeFd => cases hnext; exact Or.inl (hR.closeFd b)
  | will =>
      simp only [MqttBroker.connStep] at hnext
      split_ifs at hnext
      cases hnext
      exact Or.inl (hR.refl b)
  | clearWill =>
      cases hnext
      exact Or.inl (hR.mark b _ fun c ↦ .mk c (Or.inl rfl) _ _ _)
  | collect => cases hnext; exact Or.inl (hR.refl b)
  | lookup subs => cases hnext; exact Or.inl (hR.sessions b _)
  | saveSubs s subs => cases hnext; exact Or.inl (hR.updateSession b s (·.saveSubs subs))
  | saveInflight s i =>
      refine Or.inl ?_
      simp only [MqttBroker.connStep] at hnext
      split at hnext
      · cases hnext
        exact hR.updateSession b s fun x ↦ x.saveInflight _
      · cases hnext
        exact hR.refl b
  | unsubscribe =>
      obtain ⟨r, hsection, heq⟩ := Option.map_eq_some_iff.mp hnext
      cases heq
      exact Or.inl (hR.unsubscribeSection b r hsection)
  | delete =>
      cases hnext
      refine Or.inl ?_
      dsimp only
      split_ifs
      · exact hR.sessions b _
      · exact hR.refl b
  | idle | waiting | recv | publish => cases hnext

theorem publishBegin {env : Env κ} {b b' : Broker cfg κ} {pkt : MqttPacket}
    {pub : MqttPublish} {ack : Option Bytes}
    (h : publishBegin env b me pkt = some (b', pub, ack)) : R b b' := by
  have hseen := hR.seen env.now b
  unfold MqttBroker.publishBegin at h
  rcases ite_eq_iff.mp h with ⟨-, h⟩ | ⟨-, h⟩
  · cases h
  split at h
  · cases h
  dsimp only at h
  generalize b.updateClient me (fun c ↦ { c with lastSeenMs := env.now }) = b₁ at h hseen
  rcases ite_eq_iff.mp h with ⟨-, h⟩ | ⟨-, h⟩
  · cases h
  rcases ite_eq_iff.mp h with ⟨-, h⟩ | ⟨-, h⟩
  · split at h
    · cases h
      exact hR.trans hseen (hR.mark b₁ _ fun c ↦ .mk c (Or.inl rfl) _ _ _)
    · cases h
    · cases h
  · cases h
    exact hseen

variable [DecidableEq σ] {s s' : Threads cfg κ σ}

theorem begin {who : κ ⊕ σ} {env : Env κ} {pub : MqttPublish}
    (h : s.begin who env pub = some s') : R s.broker s'.broker := by
  obtain ⟨r, hlocked, rfl⟩ := Option.map_eq_some_iff.mp h
  exact hR.locked hlocked

omit hR in
/-- Every step changes the broker in the allowed ways, up to those that begin and
end a connection or take over its client id. -/
theorem step [Inhabited κ] (hR : ∀ me, ThreadRule me R) {e : ThreadEvent κ σ}
    (h : s.step e = some s') : R s.broker s'.broker ∨ (∃ k fd, e = .alloc k fd) ∨
      ∃ k env, e = .next k env ∧ (s.conn k).Marked := by
  cases Threads.step_cases h with
  | alloc k fd => exact Or.inr (Or.inl ⟨k, fd, rfl⟩)
  | notConnect k | connect k | leave k => exact Or.inl ((hR k).refl s.broker)
  | reject k env pkt code hpc hcheck =>
      refine Or.inl ?_
      rw [Threads.goTo_broker, handleConnect, hcheck]
      exact (hR k).trans ((hR k).reply env _ ⟨s.broker, []⟩) ((hR k).close _)
  | publishPacket k env pkt b pub ack hpc hbegin => exact Or.inl ((hR k).publishBegin hbegin)
  | late k env => exact Or.inl ((hR k).seen env.now s.broker)
  | packet k env pkt h' hpc hbegin hrun => exact Or.inl ((hR k).dispatch hrun)
  | tick k env => exact Or.inl ((hR k).retry s.broker env.now (env.sendOk k))
  | next k env h' pc hjob hnext =>
      rcases (hR k).connStep hnext with hstep | hmarked
      · exact Or.inl hstep
      · exact Or.inr (Or.inr ⟨k, env, rfl, hmarked⟩)
  | publish k env pub ack s' hpc hbegin =>
      exact Or.inl ((hR k).begin (s := s.goTo k s.broker (.reply ack)) hbegin)
  | will k env s' hpc hwill hbegin =>
      exact Or.inl ((hR k).begin (s := s.goTo k s.broker .clearWill) hbegin)
  | foreign t env pub s' hjob hbegin => exact Or.inl ((hR default).begin hbegin)
  | send who env pub op => exact Or.inl ((hR default).op env s.broker op)
  | offline => exact Or.inl ((hR default).sessions s.broker _)

end ThreadRule

end MqttBroker
