import MqttBroker.Client.InflightTable
import MqttBroker.Mesh.Ingress
import MqttBroker.Lib.History

/-!
# Releasing messages in flight

`client.c` and `broker.c` each keep a table of outbound messages in flight with
its own acknowledging code.  Both copies refine `TableStep`, so what holds along
its runs holds of both.
-/

namespace MqttBroker

open History

/-! ## Histories -/

/-- One event and the table around it. -/
structure AckRecord (n : ℕ) where
  event : AckEvent
  before : InflightTable n
  after : InflightTable n

namespace AckRecord

variable {n : ℕ}

/-- The event stores a message in entry `i`. -/
def stores (i : Fin n) (r : AckRecord n) : Bool := !(r.before i).inUse && (r.after i).inUse

/-- The event releases entry `i`. -/
def releases (i : Fin n) (r : AckRecord n) : Bool := (r.before i).inUse && !(r.after i).inUse

/-- A PUBREC with this id was received since the message of entry `i` was stored. -/
def PubrecSince (i : Fin n) (id : UInt16) (past : List (AckRecord n)) : Prop :=
  ∃ r ∈ since (stores i) past, r.event = .pubrec id

/-- A QoS 1 entry is released by its PUBACK, a QoS 2 entry by its PUBCOMP after
its PUBREC, when it waits for the PUBCOMP. -/
def Proper (past : List (AckRecord n)) (r : AckRecord n) : Prop :=
  ∀ i, r.releases i = true →
    ((r.before i).qos = 1 → r.event = .puback (r.before i).packetId) ∧
    ((r.before i).qos = 2 → r.event = .pubcomp (r.before i).packetId ∧
      (r.before i).waitingPubcomp = true ∧ PubrecSince i (r.before i).packetId past)

/-- The entry that an acknowledgement finds by its id is in the phase that the
acknowledgement is for. -/
def InPhase (r : AckRecord n) : Prop :=
  match r.event with
  | .puback id => ∀ i, r.before.acked id = some i → (r.before i).qos ≠ 2
  | .pubcomp id => ∀ i, r.before.acked id = some i →
      (r.before i).qos ≠ 1 ∧ ((r.before i).qos = 2 → (r.before i).waitingPubcomp = true)
  | _ => True

end AckRecord

open AckRecord

/-- The runs of a connection whose table is `table`: it starts with nothing in
flight, and between the events of `step` everything else may change. -/
inductive AckRun {σ : Type} {n : ℕ} (table : σ → InflightTable n) (step : AckEvent → σ → σ → Prop) :
    List (AckRecord n) → σ → Prop where
  | start {s : σ} (hfree : ∀ i, (table s i).inUse = false) : AckRun table step [] s
  | others {hist : List (AckRecord n)} {s s' : σ} (hrun : AckRun table step hist s)
      (hsame : table s' = table s) : AckRun table step hist s'
  | event {hist : List (AckRecord n)} {s s' : σ} {e : AckEvent} (hrun : AckRun table step hist s)
      (hstep : step e s s') : AckRun table step (hist ++ [⟨e, table s, table s'⟩]) s'

/-! ## Runs -/

/-- An entry waits for PUBCOMP only after a PUBREC with its id. -/
def Phased {n : ℕ} (T : InflightTable n) (past : List (AckRecord n)) : Prop :=
  ∀ i, (T i).inUse = true → (T i).waitingPubcomp = true → PubrecSince i (T i).packetId past

section

variable {n : ℕ} {e : AckEvent} {T T' : InflightTable n} {past : List (AckRecord n)}

theorem Phased.step (h : Phased T past) (hstep : TableStep e T T') :
    Phased T' (past ++ [⟨e, T, T'⟩]) := by
  intro i hi hwait
  rcases hstep.entry hi with ⟨-, -, hno⟩ | ⟨hkept, hphase⟩
  · simp [hno] at hwait
  · have hold : stores i ⟨e, T, T'⟩ = false := by simp [stores, ← hkept.inUse, hi]
    unfold PubrecSince
    rw [since_concat_neg hold]
    rcases hphase with hsame | rfl
    · obtain ⟨r, hr, hrec⟩ := h i (hkept.inUse ▸ hi) (hsame ▸ hwait)
      exact ⟨r, List.mem_append_left _ hr, by rw [hrec, hkept.packetId]⟩
    · exact ⟨_, List.mem_append_right _ (List.mem_singleton_self _), rfl⟩

theorem proper_iff_inPhase (h : Phased T past) (hstep : TableStep e T T') :
    Proper past ⟨e, T, T'⟩ ↔ InPhase ⟨e, T, T'⟩ := by
  have hrel : ∀ {id i}, (e = .puback id ∨ e = .pubcomp id) → T.acked id = some i →
      releases i ⟨e, T, T'⟩ = true := by
    intro id i he hi
    simp [releases, (InflightTable.acked_some hi).1, hstep.releases_acked he hi]
  constructor
  · intro hproper
    unfold InPhase
    dsimp only
    split
    · rename_i id
      intro i hi h2
      exact absurd ((hproper i (hrel (Or.inl rfl) hi)).2 h2).1 (by simp)
    · rename_i id
      intro i hi
      obtain ⟨h1, h2⟩ := hproper i (hrel (Or.inr rfl) hi)
      exact ⟨fun hq ↦ absurd (h1 hq) (by simp), fun hq ↦ (h2 hq).2.1⟩
    · trivial
  · intro hphase i hi
    simp only [releases, Bool.and_eq_true, Bool.not_eq_true'] at hi
    obtain ⟨id, rfl | rfl, hacked⟩ := hstep.released hi.1 hi.2
    · have hid := (InflightTable.acked_some hacked).2
      exact ⟨fun _ ↦ by rw [hid], fun h2 ↦ absurd h2 (hphase i hacked)⟩
    · have hid := (InflightTable.acked_some hacked).2
      obtain ⟨h1, h2⟩ := hphase i hacked
      exact ⟨fun hq ↦ absurd hq h1, fun hq ↦ ⟨by rw [hid], h2 hq, h i hi.1 (h2 hq)⟩⟩

end

/-- Along a run of code that refines `TableStep`, the releases are proper
exactly if every acknowledgement meets an entry in its phase. -/
theorem AckRun.phased {σ : Type} {n : ℕ} {table : σ → InflightTable n}
    {step : AckEvent → σ → σ → Prop}
    (href : ∀ {e s s'}, step e s s' → TableStep e (table s) (table s'))
    {hist : List (AckRecord n)} {s : σ} (hrun : AckRun table step hist s) :
    Phased (table s) hist ∧ (Along Proper hist ↔ ∀ r ∈ hist, r.InPhase) := by
  induction hrun with
  | start hfree => exact ⟨fun i hi ↦ by simp [hfree i] at hi, by simp⟩
  | others _ hsame ih => rwa [hsame]
  | event _ hstep ih =>
      obtain ⟨hphased, hiff⟩ := ih
      refine ⟨hphased.step (href hstep), ?_⟩
      rw [along_concat, hiff, proper_iff_inPhase hphased (href hstep)]
      simp [or_imp, forall_and]

/-! ## Both copies refine the table steps -/

theorem MeshClient.inflightAck_inflight (c : MeshClient) (id : UInt16) :
    (c.inflightAck id).inflight = InflightTable.release c.inflight id := by
  unfold inflightAck InflightTable.release InflightTable.acked
  generalize List.find? _ _ = found
  cases found <;> rfl

theorem MeshClient.inflightPubrec_tableStep (c : MeshClient) (id : UInt16) (now : ℤ)
    (sendOk : Bool) :
    TableStep (.pubrec id) c.inflight (c.inflightPubrec id now sendOk).1.inflight := by
  unfold inflightPubrec
  split
  · exact .pubrecNone _ id
  · rename_i i hi
    have hi := List.find?_some hi
    simp only [Bool.and_eq_true, decide_eq_true_eq] at hi
    obtain ⟨⟨⟨huse, rfl⟩, -⟩, -⟩ := hi
    split
    · exact .pubrecNone _ _
    · cases sendOk
      · exact .pubrecNone _ _
      · exact .pubrec _ huse ⟨rfl, rfl, rfl⟩

theorem MeshClient.inflightStore_tableStep (c : MeshClient) (id : UInt16) (buf : Bytes)
    (qos : UInt8) (now : ℤ) :
    TableStep .store c.inflight (c.inflightStore id buf qos now).inflight := by
  unfold inflightStore
  split_ifs
  · exact .storeNone _
  · split
    · rename_i i hi
      exact .store _ (by simpa using List.find?_some hi) rfl rfl
    · exact .storeNone _

theorem ackEvent_cases {pkt : MqttPacket} {e : AckEvent} (h : ackEvent pkt = some e) :
    (pkt.type = PacketType.puback ∧ e = .puback pkt.packetId) ∨
      (pkt.type = PacketType.pubrec ∧ e = .pubrec pkt.packetId) ∨
      (pkt.type = PacketType.pubcomp ∧ e = .pubcomp pkt.packetId) := by
  unfold ackEvent at h
  split_ifs at h with h₁ h₂ h₃
  · exact Or.inl ⟨h₁, (Option.some.inj h).symm⟩
  · exact Or.inr (Or.inl ⟨h₂, (Option.some.inj h).symm⟩)
  · exact Or.inr (Or.inr ⟨h₃, (Option.some.inj h).symm⟩)

section

variable {cfg : Config} {κ : Type} [DecidableEq κ]

/-- The events of a client's connection: acknowledgements that pass the tests on
the fixed header, retries, and what sending stores. -/
inductive ClientAckStep (me : κ) : AckEvent → Broker cfg κ → Broker cfg κ → Prop where
  | packet {b : Broker cfg κ} {env : Env κ} {pkt : MqttPacket} {out : Handled cfg κ} {e : AckEvent}
      (hok : pkt.headerOk = true) (hevent : ackEvent pkt = some e)
      (hout : dispatch env b me pkt = some out) : ClientAckStep me e b out.broker
  | retry (b : Broker cfg κ) (now : ℤ) (sendOk : Bool) :
      ClientAckStep me .retry b (b.updateClient me fun c ↦ (c.inflightRetry now sendOk).1)
  | store (b : Broker cfg κ) (id : UInt16) (buf : Bytes) (qos : UInt8) (now : ℤ) :
      ClientAckStep me .store b (b.updateClient me fun c ↦ c.inflightStore id buf qos now)

/-- The events of a mesh-ingress connection; a retry that fails closes it. -/
inductive MeshAckStep (i : MeshSlot) : AckEvent → MeshClients → MeshClients → Prop where
  | packet {m : MeshClients} (huse : (m i).inUse = true) (env : MeshEnv) (t : TopicTable cfg κ)
      {pkt : MqttPacket} {e : AckEvent} (hevent : ackEvent pkt = some e) :
      MeshAckStep i e m (meshIngressHandleClient env t m i (some pkt)).1
  | retry {m : MeshClients} {t : TopicTable cfg κ} {now : ℤ}
      {sendOk : Fin MESH_INGRESS_INFLIGHT_MAX → Bool}
      (hopen : ((meshInflightRetry t m i now sendOk).1 i).inUse = true) :
      MeshAckStep i .retry m (meshInflightRetry t m i now sendOk).1
  | store (m : MeshClients) (id : UInt16) (buf : Bytes) (qos : UInt8) (now : ℤ) :
      MeshAckStep i .store m (Function.update m i ((m i).inflightStore id buf qos now))

theorem ClientAckStep.refines {me : κ} {e : AckEvent} {b b' : Broker cfg κ}
    (h : ClientAckStep me e b b') :
    TableStep e (b.clients me).inflight (b'.clients me).inflight := by
  cases h with
  | @packet _ env pkt out _ hok hevent hout =>
      unfold dispatch at hout
      simp only [hok, Bool.not_true, Bool.false_eq_true, if_false] at hout
      rcases ackEvent_cases hevent with ⟨htype, rfl⟩ | ⟨htype, rfl⟩ | ⟨htype, rfl⟩
      · obtain rfl : _ = out := by
          simpa [dispatchType, htype, PacketType.connect, PacketType.publish, PacketType.subscribe,
            PacketType.unsubscribe, PacketType.pingreq, PacketType.disconnect, PacketType.puback]
            using hout
        simpa [Broker.updateClient, Client.inflightAck_inflight] using
          TableStep.puback (b.clients me).inflight pkt.packetId
      · obtain rfl : _ = out := by
          simpa [dispatchType, htype, PacketType.connect, PacketType.publish, PacketType.subscribe,
            PacketType.unsubscribe, PacketType.pingreq, PacketType.disconnect, PacketType.puback,
            PacketType.pubrec] using hout
        simpa [handlePubrec, Broker.updateClient] using
          Client.pubrec_tableStep { b.clients me with lastSeenMs := env.now } pkt.packetId env.now
            (env.sendOk me)
      · obtain rfl : _ = out := by
          simpa [dispatchType, htype, PacketType.connect, PacketType.publish, PacketType.subscribe,
            PacketType.unsubscribe, PacketType.pingreq, PacketType.disconnect, PacketType.puback,
            PacketType.pubrec, PacketType.pubrel, PacketType.pubcomp] using hout
        simpa [Broker.updateClient, Client.inflightAck_inflight] using
          TableStep.pubcomp (b.clients me).inflight pkt.packetId
  | retry _ now sendOk =>
      simpa [Broker.updateClient] using Client.inflightRetry_tableStep (b.clients me) now sendOk
  | store _ id buf qos now =>
      simpa [Broker.updateClient] using
        Client.inflightStore_tableStep (b.clients me) id buf qos now

omit [DecidableEq κ]

theorem meshClientClose_inUse (t : TopicTable cfg κ) (m : MeshClients) (i : MeshSlot) :
    ((meshClientClose t m i).1 i).inUse = false := by
  unfold meshClientClose
  cases huse : (m i).inUse
  · simp [huse]
  · simp [meshZeroed]

theorem MeshAckStep.refines {i : MeshSlot} {e : AckEvent} {m m' : MeshClients}
    (h : @MeshAckStep cfg κ i e m m') :
    TableStep e (m i).inflight (m' i).inflight := by
  cases h with
  | @packet _ huse env t pkt _ hevent =>
      unfold meshIngressHandleClient
      simp only [huse, Bool.not_true, Bool.false_eq_true, if_false]
      rcases ackEvent_cases hevent with ⟨htype, rfl⟩ | ⟨htype, rfl⟩ | ⟨htype, rfl⟩
      · simpa [htype, PacketType.publish, PacketType.subscribe, PacketType.unsubscribe,
          PacketType.puback, MeshClient.inflightAck_inflight] using
          TableStep.puback (m i).inflight pkt.packetId
      · simpa [htype, PacketType.publish, PacketType.subscribe, PacketType.unsubscribe,
          PacketType.puback, PacketType.pubrec, meshHandlePubrec] using
          MeshClient.inflightPubrec_tableStep (m i) pkt.packetId env.now (env.sendOk i)
      · simpa [htype, PacketType.publish, PacketType.subscribe, PacketType.unsubscribe,
          PacketType.puback, PacketType.pubrec, PacketType.pubrel, PacketType.pubcomp,
          MeshClient.inflightAck_inflight] using
          TableStep.pubcomp (m i).inflight pkt.packetId
  | @retry _ t now sendOk hopen =>
      unfold meshInflightRetry at hopen ⊢
      split_ifs at hopen ⊢ with huse
      · exact .retry (fun _ ↦ ⟨rfl, rfl, rfl⟩) fun _ ↦ rfl
      · dsimp only at hopen ⊢
        split at hopen
        · simp only [Function.update_self]
          exact .retry (fun j ↦ (retryEntry_kept now _).1) fun j ↦ (retryEntry_kept now _).2
        · simp [meshClientClose_inUse] at hopen
  | store _ id buf qos now =>
      simpa using MeshClient.inflightStore_tableStep (m i) id buf qos now

end

/-! ## Releases along runs of both kinds -/

/-- The table of connection `me`. -/
def Broker.inflightOf {cfg : Config} {κ : Type} (me : κ) (b : Broker cfg κ) :
    InflightTable CLIENT_INFLIGHT_MAX := (b.clients me).inflight

/-- The table of mesh-ingress connection `i`. -/
def MeshClients.inflightOf (i : MeshSlot) (m : MeshClients) :
    InflightTable MESH_INGRESS_INFLIGHT_MAX := (m i).inflight

/-- In every run of a client's or of a mesh-ingress client's connection, every
entry is released by its own kind of acknowledgement in its own phase, if and
only if every acknowledgement meets an entry in its phase. -/
theorem releases_proper_iff {cfg : Config} {κ : Type} [DecidableEq κ] :
    (∀ (me : κ) (hist : List (AckRecord CLIENT_INFLIGHT_MAX)) (b : Broker cfg κ),
      AckRun (Broker.inflightOf me) (ClientAckStep me) hist b →
        (Along Proper hist ↔ ∀ r ∈ hist, r.InPhase)) ∧
    (∀ (i : MeshSlot) (hist : List (AckRecord MESH_INGRESS_INFLIGHT_MAX)) (m : MeshClients),
      AckRun (MeshClients.inflightOf i) (@MeshAckStep cfg κ i) hist m →
        (Along Proper hist ↔ ∀ r ∈ hist, r.InPhase)) :=
  ⟨fun _ _ _ hrun ↦ (AckRun.phased (·.refines) hrun).2,
    fun _ _ _ hrun ↦ (AckRun.phased (·.refines) hrun).2⟩

/-- A PUBACK for packet id 1. -/
def pubackOne : MqttPacket := ⟨0x40, 2, writeU16 1⟩

/-- A broker without subscriptions and with one fresh connection. -/
def idleBroker : Broker Config.posix ℕ :=
  ⟨topicInit Config.posix ℕ, none, fun _ ↦ clientAllocated 3, none⟩

/-- The connection after a message with packet id 1 was sent to it. -/
def oneInFlight (qos : UInt8) : Broker Config.posix ℕ :=
  idleBroker.updateClient 0 fun c ↦ c.inflightStore 1 [0x34] qos 0

def instantEnv : Env ℕ := ⟨0, true, fun _ ↦ true⟩

/-- The store before and the PUBACK after it. -/
def storeAndPuback (qos : UInt8) (out : Handled Config.posix ℕ) :
    List (AckRecord CLIENT_INFLIGHT_MAX) :=
  [⟨.store, Broker.inflightOf 0 idleBroker, Broker.inflightOf 0 (oneInFlight qos)⟩,
    ⟨.puback 1, Broker.inflightOf 0 (oneInFlight qos), Broker.inflightOf 0 out.broker⟩]

theorem storeAndPuback_run (qos : UInt8) : ∃ out,
    dispatch instantEnv (oneInFlight qos) 0 pubackOne = some out ∧
      AckRun (Broker.inflightOf 0) (ClientAckStep 0) (storeAndPuback qos out) out.broker := by
  have hstart : AckRun (Broker.inflightOf 0) (ClientAckStep 0) [] idleBroker := .start fun _ ↦ rfl
  have hstored : AckRun (Broker.inflightOf 0) (ClientAckStep 0) _ (oneInFlight qos) :=
    .event hstart (.store idleBroker 1 [0x34] qos 0)
  have hok : pubackOne.headerOk = true := by decide
  have hevent : ackEvent pubackOne = some (.puback 1) := by decide
  exact ⟨_, rfl, .event hstored (.packet hok hevent rfl)⟩

/-- The statement at a QoS 1 message and its PUBACK. -/
theorem releases_proper_qos1 : ∃ out,
    AckRun (Broker.inflightOf 0) (ClientAckStep 0) (storeAndPuback 1 out) out.broker ∧
      (Along Proper (storeAndPuback 1 out) ↔ ∀ r ∈ storeAndPuback 1 out, r.InPhase) := by
  obtain ⟨out, -, hrun⟩ := storeAndPuback_run 1
  exact ⟨out, hrun, releases_proper_iff.1 0 _ _ hrun⟩

/-- A PUBACK releases a QoS 2 message that waits for its PUBREC. -/
theorem puback_releases_qos2 : ∃ out,
    AckRun (Broker.inflightOf 0) (ClientAckStep 0) (storeAndPuback 2 out) out.broker ∧
      (∃ r ∈ storeAndPuback 2 out, r.event = .puback 1 ∧ (r.before ⟨0, by decide⟩).qos = 2 ∧
        r.releases ⟨0, by decide⟩ = true) ∧ ¬ Along Proper (storeAndPuback 2 out) := by
  obtain ⟨out, hout, hrun⟩ := storeAndPuback_run 2
  obtain rfl := Option.some.inj hout
  refine ⟨_, hrun, ⟨_, List.mem_cons_of_mem _ (List.mem_singleton_self _), rfl, by decide,
    by decide⟩, fun h ↦ ?_⟩
  have hproper := (h [_] _ [] rfl ⟨0, by decide⟩ (by decide)).2 (by decide)
  exact absurd hproper.1 (by decide)

end MqttBroker
