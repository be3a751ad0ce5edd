import MqttBroker.Client.Inbound
import MqttBroker.Lib.History

/-!
# Acknowledging received messages

Which PUBLISH packets of a connection are answered with PUBREC or PUBACK, and
what `topic_publish` was given for them, over whole runs of the connection.
-/

namespace MqttBroker

open History

variable {cfg : Config} {κ : Type}

/-! ## Histories of a connection -/

/-- One packet of a connection and what was done with it. -/
structure Received (cfg : Config) (κ : Type) where
  before : Broker cfg κ
  env : Env κ
  pkt : MqttPacket
  out : Handled cfg κ

/-- The packet releases the QoS 2 exchange `id`. -/
def Received.releases (id : UInt16) (r : Received cfg κ) : Bool := releasedId r.pkt = some id

/-- The packet starts or repeats the QoS 2 exchange `id`. -/
def qos2Publish (id : UInt16) (pkt : MqttPacket) : Option MqttPublish :=
  (acceptedPublish pkt).filter fun pub ↦ pub.qos = 2 && pub.packetId = id

/-- The calls of `topic_publish` for the QoS 2 exchange `id`. -/
def Received.handedOver (id : UInt16) (r : Received cfg κ) : List (PublishCall cfg κ) :=
  r.out.calls.filter fun call ↦ call.pub.qos = 2 && call.pub.packetId = id

/-- The packets since the last PUBREL of `id`. -/
def exchange (id : UInt16) (hist : List (Received cfg κ)) : List (Received cfg κ) :=
  since (Received.releases id) hist

/-- All calls of `topic_publish` for `id` since its last PUBREL. -/
def handedOver (id : UInt16) (hist : List (Received cfg κ)) : List (PublishCall cfg κ) :=
  (exchange id hist).flatMap (Received.handedOver id)

/-- The first message with `id` since its last PUBREL. -/
def firstPublish (id : UInt16) (hist : List (Received cfg κ)) : Option MqttPublish :=
  (exchange id hist).findSome? fun r ↦ qos2Publish id r.pkt

/-- Since the last PUBREL of `id` one message with this id was handed to
`topic_publish`, once; it is the first one received, and it was fanned out. -/
def HandedOnce (id : UInt16) (hist : List (Received cfg κ)) : Prop :=
  ∃ call, handedOver id hist = [call] ∧ call.FannedOut ∧
    firstPublish id hist = some call.pub

/-- If the packet is a PUBLISH that was answered, its message was fanned out:
once since the last PUBREL for QoS 2, by this call for QoS 1. -/
structure Answered (past : List (Received cfg κ)) (r : Received cfg κ) : Prop where
  pubrec : ∀ pub, acceptedPublish r.pkt = some pub → pub.qos = 2 →
    r.out.RepliedWith (packetBuildPubrec pub.packetId 4) →
    HandedOnce pub.packetId (past ++ [r])
  puback : ∀ pub, acceptedPublish r.pkt = some pub → pub.qos = 1 →
    r.out.RepliedWith (packetBuildPuback pub.packetId 4) →
    ∃ call ∈ r.out.calls, call.pub = pub ∧ call.FannedOut

/-- There is room for the message of an accepted PUBLISH: the inbound QoS 2
table knows its id or has a free entry, and if the message is to be published
now, the retained store it may need exists or can be allocated. -/
def Received.Covered (me : κ) (r : Received cfg κ) : Prop :=
  ∀ pub, acceptedPublish r.pkt = some pub →
    let slot := (r.before.clients me).qos2In.slot pub.packetId
    (pub.qos = 2 → slot ≠ .full) ∧
      (pub.qos = 1 ∨ pub.qos = 2 ∧ slot ≠ .dup → StoreReady r.before r.env pub)

variable [DecidableEq κ]

/-- The runs of connection `me` since its slot was allocated: it handles
packets while it is connected, and between them other threads and its own
retries change the broker, but not its inbound QoS 2 table. -/
inductive ConnectionRun [Inhabited κ] (me : κ) :
    List (Received cfg κ) → Broker cfg κ → Prop
  | start {b : Broker cfg κ} (hfree : ∀ i, ((b.clients me).qos2In i).inUse = false)
      (ops : List (TopicOp κ)) (htable : topicRun cfg ops = some b.table) :
      ConnectionRun me [] b
  | others {hist : List (Received cfg κ)} {b b' : Broker cfg κ} (hrun : ConnectionRun me hist b)
      (hqos2 : (b'.clients me).qos2In = (b.clients me).qos2In) (ops : List (TopicOp κ))
      (htable : ops.foldlM TopicTable.apply b.table = some b'.table) : ConnectionRun me hist b'
  | packet {hist : List (Received cfg κ)} {b : Broker cfg κ} (hrun : ConnectionRun me hist b)
      (hstate : (b.clients me).state = .connected) {env : Env κ} {pkt : MqttPacket}
      {out : Handled cfg κ} (hout : dispatch env b me pkt = some out) :
      ConnectionRun me (hist ++ [⟨b, env, pkt, out⟩]) out.broker

/-! ## The table tracks the exchanges -/

section

omit [DecidableEq κ]

variable {id : UInt16} {hist : List (Received cfg κ)} {r : Received cfg κ}

theorem exchange_concat_pos (h : releasedId r.pkt = some id) : exchange id (hist ++ [r]) = [] :=
  since_concat_pos (by simp [Received.releases, h]) hist

theorem exchange_concat_neg (h : releasedId r.pkt ≠ some id) :
    exchange id (hist ++ [r]) = exchange id hist ++ [r] :=
  since_concat_neg (by simp [Received.releases, h]) hist

theorem handedOver_concat (h : releasedId r.pkt ≠ some id) :
    handedOver id (hist ++ [r]) = handedOver id hist ++ r.handedOver id := by
  simp [handedOver, exchange_concat_neg h]

theorem firstPublish_concat (h : releasedId r.pkt ≠ some id) :
    firstPublish id (hist ++ [r]) = (firstPublish id hist).or (qos2Publish id r.pkt) := by
  simp [firstPublish, exchange_concat_neg h, List.findSome?_append]

/-- A held id belongs to an exchange handed over once, any other to none. -/
structure Tracked (q : Qos2Table) (hist : List (Received cfg κ)) : Prop where
  distinct : q.Distinct
  known : ∀ id, q.Holds id → HandedOnce id hist
  unknown : ∀ id, ¬ q.Holds id → handedOver id hist = [] ∧ firstPublish id hist = none

theorem HandedOnce.concat (h : HandedOnce id hist) (hrel : releasedId r.pkt ≠ some id)
    (hcalls : r.handedOver id = []) : HandedOnce id (hist ++ [r]) := by
  obtain ⟨call, hover, hfan, hfirst⟩ := h
  exact ⟨call, by rw [handedOver_concat hrel, hover, hcalls, List.append_nil], hfan,
    by rw [firstPublish_concat hrel, hfirst, Option.some_or]⟩

theorem unknown_concat (h : handedOver id hist = [] ∧ firstPublish id hist = none)
    (hrel : releasedId r.pkt ≠ some id) (hcalls : r.handedOver id = [])
    (hpub : qos2Publish id r.pkt = none) :
    handedOver id (hist ++ [r]) = [] ∧ firstPublish id (hist ++ [r]) = none :=
  ⟨by rw [handedOver_concat hrel, h.1, hcalls, List.append_nil],
    by rw [firstPublish_concat hrel, h.2, hpub, Option.none_or]⟩

variable {q : Qos2Table}

/-- A packet that hands over nothing and starts no exchange. -/
theorem Tracked.keep (h : Tracked q hist) (hrel : releasedId r.pkt = none)
    (hcalls : ∀ id, r.handedOver id = [])
    (hpub : ∀ id, ¬ q.Holds id → qos2Publish id r.pkt = none) : Tracked q (hist ++ [r]) := by
  have hrel' : ∀ id, releasedId r.pkt ≠ some id := by simp [hrel]
  exact ⟨h.distinct, fun id hid ↦ (h.known id hid).concat (hrel' id) (hcalls id),
    fun id hid ↦ unknown_concat (h.unknown id hid) (hrel' id) (hcalls id) (hpub id hid)⟩

/-- A PUBREL ends the exchange of its id. -/
theorem Tracked.release (h : Tracked q hist) {rid : UInt16} (hrel : releasedId r.pkt = some rid)
    (hcalls : ∀ id, r.handedOver id = []) (hpub : ∀ id, qos2Publish id r.pkt = none) :
    Tracked (q.release rid) (hist ++ [r]) := by
  obtain ⟨hdistinct, hholds⟩ := h.distinct.release rid
  have hrel' : ∀ id, id ≠ rid → releasedId r.pkt ≠ some id := fun id hid ↦ by
    simp [hrel, Ne.symm hid]
  refine ⟨hdistinct, fun id hid ↦ ?_, fun id hid ↦ ?_⟩
  · obtain ⟨hne, hid⟩ := (hholds id).mp hid
    exact (h.known id hid).concat (hrel' id hne) (hcalls id)
  · by_cases hne : id = rid
    · subst hne
      simp [handedOver, firstPublish, exchange_concat_pos hrel]
    · have hid' : ¬ q.Holds id := fun hq ↦ hid ((hholds id).mpr ⟨hne, hq⟩)
      exact unknown_concat (h.unknown id hid') (hrel' id hne) (hcalls id) (hpub id)

/-- A new id: its message has been handed over once if this call fanned it out. -/
theorem Tracked.handedOnce_iff (h : Tracked q hist) (hid : ¬ q.Holds id)
    (hrel : releasedId r.pkt = none) {call : PublishCall cfg κ} (hcalls : r.handedOver id = [call])
    (hpub : qos2Publish id r.pkt = some call.pub) :
    HandedOnce id (hist ++ [r]) ↔ call.FannedOut := by
  have hrel' : releasedId r.pkt ≠ some id := by simp [hrel]
  obtain ⟨hover, hfirst⟩ := h.unknown id hid
  simp [HandedOnce, handedOver_concat hrel', firstPublish_concat hrel', hover, hfirst, hcalls,
    hpub]

theorem Tracked.store (h : Tracked q hist) (hid : ¬ q.Holds id) {i : Fin CLIENT_QOS2_IN_MAX}
    (hi : (q i).inUse = false) (hrel : releasedId r.pkt = none)
    (honce : HandedOnce id (hist ++ [r]))
    (hcalls : ∀ j, j ≠ id → r.handedOver j = [])
    (hpub : ∀ j, j ≠ id → qos2Publish j r.pkt = none) :
    Tracked (q.store id i) (hist ++ [r]) := by
  have hrel' : ∀ j, releasedId r.pkt ≠ some j := by simp [hrel]
  refine ⟨h.distinct.store hid i, fun j hj ↦ ?_, fun j hj ↦ ?_⟩
  · by_cases hne : j = id
    · subst hne
      exact honce
    · have hj' := ((Qos2Table.holds_store hi j).mp hj).resolve_left hne
      exact (h.known j hj').concat (hrel' j) (hcalls j hne)
  · rw [Qos2Table.holds_store hi, not_or] at hj
    exact unknown_concat (h.unknown j hj.2) (hrel' j) (hcalls j hj.1) (hpub j hj.1)

end

/-! ## One packet -/

section

omit [DecidableEq κ]

variable {id : UInt16} {pkt : MqttPacket} {pub : MqttPublish}

theorem qos2Publish_of_accepted (hacc : acceptedPublish pkt = some pub) :
    qos2Publish id pkt = if pub.qos = 2 ∧ pub.packetId = id then some pub else none := by
  simp [qos2Publish, hacc, Option.filter_some]

theorem handedOver_of_calls_nil {r : Received cfg κ} (hcalls : r.out.calls = []) :
    r.handedOver id = [] := by
  simp [Received.handedOver, hcalls]

theorem handedOver_of_call (r : Received cfg κ) {call : PublishCall cfg κ}
    (hcalls : r.out.calls = [call]) (hpub : call.pub = pub) :
    r.handedOver id = if pub.qos = 2 ∧ pub.packetId = id then [call] else [] := by
  simp [Received.handedOver, hcalls, hpub, List.filter_cons]

theorem answered_iff_of_accepted (past : List (Received cfg κ)) (r : Received cfg κ)
    (hacc : acceptedPublish r.pkt = some pub) :
    Answered past r ↔
      (pub.qos = 2 → r.out.RepliedWith (packetBuildPubrec pub.packetId 4) →
        HandedOnce pub.packetId (past ++ [r])) ∧
      (pub.qos = 1 → r.out.RepliedWith (packetBuildPuback pub.packetId 4) →
        ∃ call ∈ r.out.calls, call.pub = pub ∧ call.FannedOut) := by
  refine ⟨fun h ↦ ⟨h.pubrec pub hacc, h.puback pub hacc⟩, fun h ↦ ⟨?_, ?_⟩⟩ <;>
    intro pub' hpub' <;> obtain rfl : pub = pub' := Option.some.inj (hacc.symm.trans hpub')
  · exact h.1
  · exact h.2

theorem covered_iff_of_accepted (me : κ) (r : Received cfg κ)
    (hacc : acceptedPublish r.pkt = some pub) :
    r.Covered me ↔
      (pub.qos = 2 → (r.before.clients me).qos2In.slot pub.packetId ≠ .full) ∧
      (pub.qos = 1 ∨ pub.qos = 2 ∧ (r.before.clients me).qos2In.slot pub.packetId ≠ .dup →
        StoreReady r.before r.env pub) := by
  simp [Received.Covered, hacc]

theorem packetId_ne_zero (hacc : acceptedPublish pkt = some pub) (hq : pub.qos ≠ 0) :
    pub.packetId ≠ 0 := by
  obtain ⟨-, -, -, -, -, -, hid⟩ := acceptedPublish_eq_some hacc
  exact fun h0 ↦ hid ⟨UInt8.pos_iff_ne_zero.mpr hq, h0⟩

end

/-- What holds after a packet: it is answered as it should be exactly if there
was room for it, and then the inbound QoS 2 table tracks the exchanges again. -/
structure Steps (me : κ) (past : List (Received cfg κ)) (r : Received cfg κ) : Prop where
  answered_iff : Answered past r ↔ r.Covered me
  tracked : r.Covered me → Tracked (r.out.broker.clients me).qos2In (past ++ [r])

section

variable {me : κ} {past : List (Received cfg κ)} {b : Broker cfg κ} {env : Env κ}
  {pkt : MqttPacket} {out : Handled cfg κ} {pub : MqttPublish}

theorem steps_of_quiet (ht : Tracked (b.clients me).qos2In past) (hl : b.table.IsLinked)
    (hout : dispatch env b me pkt = some out) (hacc : acceptedPublish pkt = none) :
    Steps me past ⟨b, env, pkt, out⟩ := by
  obtain ⟨h, hrun, hq⟩ := dispatch_quiet me hl hacc env
  obtain rfl : h = out := Option.some.inj (hrun.symm.trans hout)
  have hcalls : ∀ id, Received.handedOver id ⟨b, env, pkt, h⟩ = [] := fun id ↦
    handedOver_of_calls_nil hq.calls
  have hpub : ∀ id, qos2Publish id pkt = none := fun id ↦ by simp [qos2Publish, hacc]
  refine ⟨⟨fun _ pub hpub ↦ ?_, fun _ ↦ ⟨?_, ?_⟩⟩, fun _ ↦ ?_⟩
  · simp [hacc] at hpub
  · simp [hacc]
  · simp [hacc]
  · rw [hq.qos2In]
    cases hrel : releasedId pkt with
    | none => exact ht.keep hrel hcalls fun id _ ↦ hpub id
    | some rid => exact ht.release hrel hcalls hpub

variable (ht : Tracked (b.clients me).qos2In past) (hl : b.table.IsLinked)
  (hout : dispatch env b me pkt = some out) (hacc : acceptedPublish pkt = some pub)

include ht hl hout hacc

theorem steps_of_qos01 (h2 : pub.qos ≠ 2) : Steps me past ⟨b, env, pkt, out⟩ := by
  obtain ⟨-, -, -, -, hne, hplain, -⟩ := acceptedPublish_eq_some hacc
  obtain ⟨hfits, hq⟩ := acceptedPublish_fits hacc
  rw [dispatch_accepted hacc] at hout
  obtain ⟨h, hrun, hrep, hp⟩ := publishAccepted_qos01 me
    (b := b.updateClient me fun c ↦ { c with lastSeenMs := env.now }) hl env hfits hne hplain hq h2
  obtain rfl : h = out := Option.some.inj (hrun.symm.trans hout)
  obtain ⟨call, hcalls, hcall, hfan⟩ := hp.call
  refine ⟨?_, fun _ ↦ ?_⟩
  · rw [answered_iff_of_accepted past ⟨b, env, pkt, h⟩ hacc,
      covered_iff_of_accepted me ⟨b, env, pkt, h⟩ hacc]
    have hreplied : pub.qos = 1 → h.RepliedWith (packetBuildPuback pub.packetId 4) := by
      intro h1
      rw [if_pos h1] at hrep
      exact Handled.repliedWith_of_eq hrep
        (packetBuildAck_ne_none (packetId_ne_zero hacc (by rw [h1]; decide)))
    constructor
    · rintro ⟨-, hack⟩
      refine ⟨fun h ↦ absurd h h2, ?_⟩
      rintro (h1 | ⟨h2', -⟩)
      · obtain ⟨call', hmem, -, hfan'⟩ := hack h1 (hreplied h1)
        rw [hcalls, List.mem_singleton] at hmem
        exact hfan.mp (hmem ▸ hfan')
      · exact absurd h2' h2
    · rintro ⟨-, hready⟩
      refine ⟨fun h ↦ absurd h h2, fun h1 _ ↦ ⟨call, ?_, hcall, hfan.mpr (hready (Or.inl h1))⟩⟩
      rw [hcalls]
      exact List.mem_singleton_self call
  · rw [hp.qos2In, Broker.updateClient_qos2In]
    refine ht.keep (releasedId_of_accepted hacc) (fun id ↦ ?_) fun id _ ↦ ?_
    · simp [handedOver_of_call ⟨b, env, pkt, h⟩ hcalls hcall, h2]
    · simp [qos2Publish_of_accepted hacc, h2]

theorem steps_of_qos2_quiet (h2 : pub.qos = 2)
    (hslot : ∀ i, (b.clients me).qos2In.slot pub.packetId ≠ .free i) :
    Steps me past ⟨b, env, pkt, out⟩ := by
  rw [dispatch_accepted hacc] at hout
  obtain ⟨h, hrun, hrep, hquiet⟩ := publishAccepted_qos2_quiet
    (b := b.updateClient me fun c ↦ { c with lastSeenMs := env.now }) hl env h2
    (by rwa [Broker.updateClient_qos2In])
  obtain rfl : h = out := Option.some.inj (hrun.symm.trans hout)
  have hrel := releasedId_of_accepted hacc
  have hcalls : ∀ id, Received.handedOver id ⟨b, env, pkt, h⟩ = [] := fun id ↦
    handedOver_of_calls_nil hquiet.calls
  have hreplied : h.RepliedWith (packetBuildPubrec pub.packetId 4) :=
    Handled.repliedWith_of_eq hrep
      (packetBuildAck_ne_none (packetId_ne_zero hacc (by rw [h2]; decide)))
  have h1 : pub.qos ≠ 1 := by
    rw [h2]
    decide
  rw [Broker.updateClient_qos2In] at hquiet
  rcases (b.clients me).qos2In.slot_cases pub.packetId with
    ⟨hdup, hholds⟩ | ⟨i, hfree, -⟩ | ⟨hfull, hnew⟩
  · -- a repeated id: the message was handed over when the id came first
    have hkeep : Tracked (b.clients me).qos2In (past ++ [⟨b, env, pkt, h⟩]) := by
      refine ht.keep hrel hcalls fun id hid ↦ ?_
      have hne : pub.packetId ≠ id := fun heq ↦ hid (heq ▸ hholds)
      simp [qos2Publish_of_accepted hacc, hne]
    refine ⟨?_, fun _ ↦ by rwa [hquiet.qos2In]⟩
    rw [answered_iff_of_accepted past ⟨b, env, pkt, h⟩ hacc,
      covered_iff_of_accepted me ⟨b, env, pkt, h⟩ hacc]
    simpa [h1, h2, hdup] using fun _ ↦ hkeep.known _ hholds
  · exact absurd hfree (hslot i)
  · -- a full table: PUBREC is sent and nothing was handed over
    have hno : ¬ HandedOnce pub.packetId (past ++ [⟨b, env, pkt, h⟩]) := by
      rintro ⟨call, hover, -⟩
      rw [handedOver_concat (by simp [hrel]), (ht.unknown _ hnew).1, hcalls] at hover
      simp at hover
    have hnot : ¬ Received.Covered me ⟨b, env, pkt, h⟩ := by
      rw [covered_iff_of_accepted me ⟨b, env, pkt, h⟩ hacc]
      exact fun hc ↦ hc.1 h2 hfull
    refine ⟨⟨fun ha ↦ ?_, fun hc ↦ absurd hc hnot⟩, fun hc ↦ absurd hc hnot⟩
    exact absurd (ha.pubrec pub hacc h2 hreplied) hno

theorem steps_of_qos2_free (h2 : pub.qos = 2) {i : Fin CLIENT_QOS2_IN_MAX}
    (hslot : (b.clients me).qos2In.slot pub.packetId = .free i)
    (hi : ((b.clients me).qos2In i).inUse = false)
    (hnew : ¬ (b.clients me).qos2In.Holds pub.packetId) : Steps me past ⟨b, env, pkt, out⟩ := by
  obtain ⟨-, -, -, -, hne, hplain, -⟩ := acceptedPublish_eq_some hacc
  obtain ⟨hfits, hq⟩ := acceptedPublish_fits hacc
  rw [dispatch_accepted hacc] at hout
  obtain ⟨h, hrun, hrep, hp⟩ := publishAccepted_qos2_free
    (b := b.updateClient me fun c ↦ { c with lastSeenMs := env.now }) hl env hfits hne hplain hq h2
    (i := i) (by rwa [Broker.updateClient_qos2In])
  obtain rfl : h = out := Option.some.inj (hrun.symm.trans hout)
  obtain ⟨call, hcalls, rfl, hfan⟩ := hp.call
  change call.FannedOut ↔ StoreReady b env call.pub at hfan
  have hrel := releasedId_of_accepted hacc
  have hreplied : h.RepliedWith (packetBuildPubrec call.pub.packetId 4) :=
    Handled.repliedWith_of_eq hrep
      (packetBuildAck_ne_none (packetId_ne_zero hacc (by rw [h2]; decide)))
  have h1 : call.pub.qos ≠ 1 := by
    rw [h2]
    decide
  have honce : HandedOnce call.pub.packetId (past ++ [⟨b, env, pkt, h⟩]) ↔ call.FannedOut := by
    refine ht.handedOnce_iff (r := ⟨b, env, pkt, h⟩) hnew hrel ?_ ?_
    · simp [handedOver_of_call ⟨b, env, pkt, h⟩ hcalls rfl, h2]
    · simp [qos2Publish_of_accepted hacc, h2]
  have hcov : Received.Covered me ⟨b, env, pkt, h⟩ ↔ StoreReady b env call.pub := by
    rw [covered_iff_of_accepted me ⟨b, env, pkt, h⟩ hacc]
    simp [h2, hslot]
  refine ⟨?_, fun hc ↦ ?_⟩
  · rw [answered_iff_of_accepted past ⟨b, env, pkt, h⟩ hacc, hcov]
    simpa [h1, h2, hreplied] using honce.trans hfan
  · rw [hp.qos2In, Broker.updateClient_qos2In]
    refine ht.store (r := ⟨b, env, pkt, h⟩) hnew hi hrel (honce.mpr (hfan.mpr (hcov.mp hc)))
      (fun j hj ↦ ?_) fun j hj ↦ ?_
    · simp [handedOver_of_call ⟨b, env, pkt, h⟩ hcalls rfl, Ne.symm hj]
    · simp [qos2Publish_of_accepted hacc, Ne.symm hj]

omit hacc in
/-- The step lemma, for any packet. -/
theorem steps : Steps me past ⟨b, env, pkt, out⟩ := by
  cases hacc : acceptedPublish pkt with
  | none => exact steps_of_quiet ht hl hout hacc
  | some pub =>
      by_cases h2 : pub.qos = 2
      · rcases (b.clients me).qos2In.slot_cases pub.packetId with
          ⟨hdup, -⟩ | ⟨i, hfree, hi, hnew⟩ | ⟨hfull, -⟩
        · exact steps_of_qos2_quiet ht hl hout hacc h2 (by simp [hdup])
        · exact steps_of_qos2_free ht hl hout hacc h2 hfree hi hnew
        · exact steps_of_qos2_quiet ht hl hout hacc h2 (by simp [hfull])
      · exact steps_of_qos01 ht hl hout hacc h2

end

/-! ## Runs -/

omit [DecidableEq κ] in
theorem tracked_nil {q : Qos2Table} (hfree : ∀ i, (q i).inUse = false) :
    Tracked q ([] : List (Received cfg κ)) := by
  refine ⟨fun i j hi ↦ ?_, fun id ↦ ?_, fun _ _ ↦ ⟨rfl, rfl⟩⟩
  · simp [hfree i] at hi
  · rintro ⟨i, hi, -⟩
    simp [hfree i] at hi

/-- Along a run the table is linked, and while there has been room for every
message the inbound QoS 2 table tracks the exchanges. -/
theorem ConnectionRun.tracked [Inhabited κ] {me : κ} {hist : List (Received cfg κ)}
    {b : Broker cfg κ} (hrun : ConnectionRun me hist b) :
    b.table.IsLinked ∧
      ((∀ r ∈ hist, r.Covered me) → Tracked (b.clients me).qos2In hist) ∧
      (Along Answered hist ↔ ∀ r ∈ hist, r.Covered me) := by
  induction hrun with
  | @start b hfree ops htable =>
      obtain ⟨t, ht, hl⟩ := topicRun_isLinked cfg ops
      obtain rfl : t = b.table := Option.some.inj (ht.symm.trans htable)
      exact ⟨hl, fun _ ↦ tracked_nil hfree, by simp⟩
  | @others hist b b' _ hqos2 ops htable ih =>
      obtain ⟨t, ht, hl⟩ := ih.1.foldlM ops
      obtain rfl : t = b'.table := Option.some.inj (ht.symm.trans htable)
      exact ⟨hl, by rw [hqos2]; exact ih.2.1, ih.2.2⟩
  | @packet hist b _ _ env pkt out hout ih =>
      obtain ⟨hl, htracked, hiff⟩ := ih
      obtain ⟨out', hrun', hl'⟩ := dispatch_isLinked hl env me pkt
      obtain rfl : out' = out := Option.some.inj (hrun'.symm.trans hout)
      have hall : (∀ r ∈ hist ++ [⟨b, env, pkt, out'⟩], r.Covered me) ↔
          (∀ r ∈ hist, r.Covered me) ∧ Received.Covered me ⟨b, env, pkt, out'⟩ := by
        simp [or_imp, forall_and]
      refine ⟨hl', fun hcov ↦ ?_, ?_⟩
      · obtain ⟨hpast, hlast⟩ := hall.mp hcov
        exact (steps (htracked hpast) hl hout).tracked hlast
      · rw [along_concat, hiff, hall]
        exact and_congr_right fun hpast ↦ (steps (htracked hpast) hl hout).answered_iff

/-- In every run of a connection, all answered PUBLISH packets have been fanned
out, QoS 2 ones once since the last PUBREL of their id, if and only if there was
room for every one of them. -/
theorem answered_iff_covered [Inhabited κ] {me : κ} {hist : List (Received cfg κ)}
    {b : Broker cfg κ} (hrun : ConnectionRun me hist b) :
    Along Answered hist ↔ ∀ r ∈ hist, r.Covered me :=
  hrun.tracked.2.2

/-- A connection that handles packets one after the other. -/
def receiveAll (env : Env κ) (me : κ) :
    List MqttPacket → Broker cfg κ → Option (List (Received cfg κ) × Broker cfg κ)
  | [], b => some ([], b)
  | pkt :: pkts, b =>
      if (b.clients me).state = .connected then do
        let out ← dispatch env b me pkt
        let (rest, b') ← receiveAll env me pkts out.broker
        some (⟨b, env, pkt, out⟩ :: rest, b')
      else none

theorem ConnectionRun.receiveAll [Inhabited κ] {env : Env κ} {me : κ} {pkts : List MqttPacket}
    {hist rest : List (Received cfg κ)} {b b' : Broker cfg κ} (hrun : ConnectionRun me hist b)
    (h : receiveAll env me pkts b = some (rest, b')) : ConnectionRun me (hist ++ rest) b' := by
  induction pkts generalizing hist rest b with
  | nil =>
      obtain ⟨rfl, rfl⟩ := Prod.mk.inj (Option.some.inj h)
      simpa using hrun
  | cons pkt pkts ih =>
      unfold MqttBroker.receiveAll at h
      split_ifs at h with hstate
      simp only [Option.bind_eq_bind, Option.bind_eq_some_iff] at h
      obtain ⟨out, hout, ⟨rest', b''⟩, hrest, h⟩ := h
      obtain ⟨rfl, rfl⟩ := Prod.mk.inj (Option.some.inj h)
      have hstep := ConnectionRun.packet hrun hstate hout
      simpa using ih hstep hrest

/-- A broker without subscriptions and with one fresh connection. -/
def freshBroker : Broker Config.posix ℕ :=
  ⟨topicInit Config.posix ℕ, none, fun _ ↦ clientAllocated 3, none⟩

def freshEnv : Env ℕ := ⟨0, true, fun _ ↦ true⟩

/-- A QoS 2 PUBLISH on topic `a` without payload. -/
def qos2Message (id : UInt16) : MqttPacket := ⟨0x34, 5, writeStr [0x61] ++ writeU16 id⟩

theorem connectionRun_fresh : ConnectionRun 0 [] freshBroker :=
  .start (fun _ ↦ rfl) [] rfl

/-- The statement at one QoS 2 message, for which there is room. -/
theorem answered_iff_covered_one :
    ∃ out, dispatch freshEnv freshBroker 0 (qos2Message 1) = some out ∧
      (Along Answered [⟨freshBroker, freshEnv, qos2Message 1, out⟩] ↔
        ∀ r ∈ [(⟨freshBroker, freshEnv, qos2Message 1, out⟩ : Received Config.posix ℕ)],
          r.Covered 0) := by
  have hlinked : freshBroker.table.IsLinked := TopicTable.isLinked_init
  obtain ⟨out, hout, -⟩ := dispatch_isLinked hlinked freshEnv 0 (qos2Message 1)
  exact ⟨out, hout, answered_iff_covered (.packet connectionRun_fresh rfl hout)⟩

/-- The fifth QoS 2 message of a client that has released none is answered with
PUBREC and handed to nobody. -/
theorem pubrec_without_publish :
    ∃ (past : List (Received Config.posix ℕ)) (r : Received Config.posix ℕ)
        (b : Broker Config.posix ℕ), ConnectionRun 0 (past ++ [r]) b ∧
      r.pkt = qos2Message 5 ∧ r.out.RepliedWith (packetBuildPubrec 5 4) ∧
      handedOver 5 (past ++ [r]) = [] ∧ ¬ Answered past r := by
  have hfive : (receiveAll freshEnv 0 ([1, 2, 3, 4].map qos2Message) freshBroker).bind (fun p ↦
      (dispatch freshEnv p.2 0 (qos2Message 5)).map fun out ↦
        ((p.2.clients 0).state, out.replies,
          (handedOver 5 (p.1 ++ [⟨p.2, freshEnv, qos2Message 5, out⟩])).length)) =
      some (.connected, [[0x50, 2, 0, 5]], 0) := by decide
  obtain ⟨⟨past, b⟩, hpast, h⟩ := Option.bind_eq_some_iff.mp hfive
  obtain ⟨out, hout, h⟩ := Option.map_eq_some_iff.mp h
  obtain ⟨hstate, hreplies, hover⟩ := by simpa only [Prod.mk.injEq] using h
  have hrun := connectionRun_fresh.receiveAll hpast
  have hacc : acceptedPublish (qos2Message 5) = some ⟨[0x61], [], 2, 0, 0, 5⟩ := by decide
  have hrep : out.RepliedWith (packetBuildPubrec 5 4) :=
    ⟨[0x50, 2, 0, 5], by decide, by simp [hreplies]⟩
  refine ⟨past, ⟨b, freshEnv, qos2Message 5, out⟩, out.broker, .packet hrun hstate hout, rfl, hrep,
    List.length_eq_zero_iff.mp hover, fun ha ↦ ?_⟩
  obtain ⟨call, hcall, -⟩ := ha.pubrec _ hacc rfl hrep
  rw [List.length_eq_zero_iff.mp hover] at hcall
  cases hcall

end MqttBroker
