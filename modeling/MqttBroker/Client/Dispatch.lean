import MqttBroker.Topic.Publish

/-!
# Packet handling

What `client_thread_fn` does with a received packet: the tests on the fixed
header, the dispatching `switch` and the handlers behind it.
-/

namespace MqttBroker

/-! ## Tests on the fixed header -/

namespace MqttPacket

/-- `pkt.type_flags & 0xF0` -/
def type (pkt : MqttPacket) : UInt8 := pkt.typeFlags &&& 0xF0

/-- The packet id of a packet that starts with one. -/
def packetId (pkt : MqttPacket) : UInt16 :=
  match readU16 pkt.buf with
  | some (id, _) => id
  | none => 0

/-- An acknowledgement: PUBACK, PUBREC, PUBREL or PUBCOMP. -/
def isAck (pkt : MqttPacket) : Bool :=
  pkt.type = PacketType.puback || pkt.type = PacketType.pubrec ||
    pkt.type = PacketType.pubrel || pkt.type = PacketType.pubcomp

/-- Packet types 0 and 15 are reserved. -/
def reservedType (pkt : MqttPacket) : Bool := pkt.type = 0x00 || pkt.type = 0xF0

def badFlags (pkt : MqttPacket) : Bool :=
  let lower := pkt.typeFlags &&& 0x0F
  if pkt.type = PacketType.subscribe ∨ pkt.type = PacketType.unsubscribe ∨
      pkt.type = PacketType.pubrel then lower ≠ 0x02
  else if pkt.type = PacketType.publish then false
  else lower ≠ 0x00

def badRem (pkt : MqttPacket) : Bool :=
  if pkt.isAck then pkt.remainingLen ≠ 2
  else if pkt.type = PacketType.pingreq ∨ pkt.type = PacketType.disconnect then
    pkt.remainingLen ≠ 0
  else if pkt.type = PacketType.subscribe ∨ pkt.type = PacketType.unsubscribe then
    pkt.remainingLen < 2
  else false

/-- The packet reaches the dispatching `switch`. -/
def headerOk (pkt : MqttPacket) : Bool :=
  !pkt.reservedType && !pkt.badFlags && !pkt.badRem && !(pkt.isAck && pkt.packetId = 0)

end MqttPacket

/-! ## Handlers -/

variable {cfg : Config} {κ : Type}

/-- One call of `topic_publish`. -/
structure PublishCall (cfg : Config) (κ : Type) where
  pub : MqttPublish
  /-- the table at the time of the call -/
  table : TopicTable cfg κ
  rc : ℤ
  sent : List (κ × Bytes)

/-- What a handler causes, in order. -/
inductive Output (cfg : Config) (κ : Type) where
  /-- `client_send` of a frame to the handled connection -/
  | reply (frame : Bytes)
  | publish (call : PublishCall cfg κ)
  | notify (n : Notify)

/-- The broker after a handler, and what it caused. -/
structure Handled (cfg : Config) (κ : Type) where
  broker : Broker cfg κ
  log : List (Output cfg κ)

/-- What the scan of `handle_publish` finds in the inbound QoS 2 table. -/
inductive Qos2Slot where
  | dup
  | free (i : Fin CLIENT_QOS2_IN_MAX)
  | full
  deriving DecidableEq, Repr

namespace Qos2Table

variable (q : Qos2Table) (id : UInt16)

/-- An entry in use has this id. -/
def Holds : Prop := ∃ i, (q i).inUse = true ∧ (q i).packetId = id

instance : Decidable (q.Holds id) := inferInstanceAs (Decidable (∃ _, _))

def slot : Qos2Slot :=
  if q.Holds id then .dup
  else
    match (List.finRange CLIENT_QOS2_IN_MAX).find? fun i ↦ !(q i).inUse with
    | some i => .free i
    | none => .full

def store (i : Fin CLIENT_QOS2_IN_MAX) : Qos2Table := Function.update q i ⟨id, true⟩

/-- The first entry in use with this id is freed. -/
def release : Qos2Table :=
  match (List.finRange CLIENT_QOS2_IN_MAX).find? fun i ↦
      (q i).inUse && (q i).packetId = id with
  | some i => Function.update q i { q i with inUse := false }
  | none => q

end Qos2Table

namespace Client

def qos2Store (c : Client) (i : Fin CLIENT_QOS2_IN_MAX) (id : UInt16) : Client :=
  { c with qos2In := c.qos2In.store id i }

def qos2Release (c : Client) (id : UInt16) : Client :=
  { c with qos2In := c.qos2In.release id }

/-- The first PUBLISH in flight that a PUBREC acknowledges becomes a PUBREL. -/
def pubrec (c : Client) (id : UInt16) (now : ℤ) (sendOk : Bool) : Client × List Bytes :=
  match (List.finRange CLIENT_INFLIGHT_MAX).find? fun i ↦
      (c.inflight i).inUse && (c.inflight i).packetId = id && (c.inflight i).qos = 2 &&
        !(c.inflight i).waitingPubcomp with
  | none => (c, [])
  | some i =>
      match packetBuildPubrel id 4 with
      | none => (c, [])
      | some rel =>
          let c := c.clientSend sendOk
          let e := { c.inflight i with waitingPubcomp := true, sentAtMs := now, buf := rel }
          ({ c with inflight := Function.update c.inflight i e }, [rel])

theorem pubrec_sentTo (c : Client) (id : UInt16) (now : ℤ) (sendOk : Bool) :
    SentTo c (c.pubrec id now sendOk).1 := by
  unfold pubrec
  split
  · exact .refl c
  · split
    · exact .refl c
    · exact (clientSend_sentTo c sendOk).trans ⟨rfl, rfl, rfl, rfl, rfl, rfl, rfl, rfl⟩

end Client

section

variable [DecidableEq κ]

namespace Broker

def updateClient (b : Broker cfg κ) (me : κ) (f : Client → Client) : Broker cfg κ :=
  { b with clients := Function.update b.clients me (f (b.clients me)) }

/-- `c->state = CLIENT_STATE_DISCONNECTING` -/
def close (b : Broker cfg κ) (me : κ) : Broker cfg κ :=
  b.updateClient me fun c ↦ { c with state := .disconnecting }

end Broker

namespace Handled

/-- Send a built frame to the handled connection. -/
def reply (env : Env κ) (me : κ) (frame : Option Bytes) (h : Handled cfg κ) : Handled cfg κ :=
  match frame with
  | none => h
  | some frame =>
      ⟨h.broker.updateClient me (·.clientSend (env.sendOk me)), h.log ++ [.reply frame]⟩

end Handled

/-- `topic_publish` as a handler calls it. -/
def callPublish (env : Env κ) (b : Broker cfg κ) (pub : MqttPublish) : Option (Handled cfg κ) :=
  (topicPublish env b pub).map fun r ↦
    ⟨r.broker, [.publish ⟨pub, b.table, r.rc, r.sent⟩]⟩

/-- The rest of `handle_publish` for a message that passed its tests. -/
def publishAccepted (env : Env κ) (b : Broker cfg κ) (me : κ) (pub : MqttPublish) :
    Option (Handled cfg κ) :=
  if pub.qos = 2 then do
    let h ← match (b.clients me).qos2In.slot pub.packetId with
      | .free i => callPublish env (b.updateClient me (·.qos2Store i pub.packetId)) pub
      | .dup => some ⟨b, []⟩
      | .full => some ⟨b, []⟩
    some (h.reply env me (packetBuildPubrec pub.packetId 4))
  else do
    let h ← callPublish env b pub
    some (if pub.qos = 1 then h.reply env me (packetBuildPuback pub.packetId 4) else h)

def handlePublish (env : Env κ) (b : Broker cfg κ) (me : κ) (pkt : MqttPacket) :
    Option (Handled cfg κ) :=
  match packetParsePublish pkt with
  | none => some ⟨b, []⟩
  | some pub =>
      if pub.qos = 3 then some ⟨b.close me, []⟩
      else if pub.topic = [] ∨ hasWildcard pub.topic then some ⟨b.close me, []⟩
      else if 0 < pub.qos ∧ pub.packetId = 0 then some ⟨b.close me, []⟩
      else publishAccepted env b me pub

/-- One round of the first loop of `handle_subscribe`: the table, the return
codes and the notifications so far. -/
def subscribeOne (me : κ) (r : TopicTable cfg κ × Bytes × List Notify) (e : CStr × UInt8) :
    TopicTable cfg κ × Bytes × List Notify :=
  if 2 < e.2 ∨ !topicFilterValid e.1 then (r.1, r.2.1 ++ [0x80], r.2.2)
  else
    let (t, rc, n) := r.1.topicSubscribe me e.1 e.2
    (t, r.2.1 ++ [if rc = 0 then e.2 else 0x80], r.2.2 ++ n)

/-- One round of the second loop of `handle_subscribe`. -/
def retainedOne (env : Env κ) (me : κ) (h : Handled cfg κ) (e : (CStr × UInt8) × UInt8) :
    Handled cfg κ :=
  if e.2 = 0x80 then h
  else
    let (c, frames) := topicDeliverRetained h.broker.retains (h.broker.clients me) e.1.1 e.1.2
      env.now (env.sendOk me)
    ⟨h.broker.updateClient me fun _ ↦ c, h.log ++ frames.map .reply⟩

def handleSubscribe (env : Env κ) (b : Broker cfg κ) (me : κ) (pkt : MqttPacket) :
    Handled cfg κ :=
  match packetParseSubscribe pkt 8 with
  | none => ⟨b.close me, []⟩
  | some (packetId, topics) =>
      let (t, codes, n) := topics.foldl (subscribeOne me) (b.table, [], [])
      let h : Handled cfg κ := ⟨{ b with table := t }, n.map .notify⟩
      let h := h.reply env me (packetBuildSuback packetId codes 32)
      (topics.zip codes).foldl (retainedOne env me) h

/-- The loop of `handle_unsubscribe`; the flag says whether it ran to its end. -/
def unsubscribeEach (me : κ) :
    List CStr → TopicTable cfg κ → Option (TopicTable cfg κ × Bool × List Notify)
  | [], t => some (t, true, [])
  | f :: fs, t =>
      if !topicFilterValid f then some (t, false, [])
      else do
        let (t, n) ← t.topicUnsubscribe me f
        let (t, ok, n') ← unsubscribeEach me fs t
        some (t, ok, n ++ n')

def handleUnsubscribe (env : Env κ) (b : Broker cfg κ) (me : κ) (pkt : MqttPacket) :
    Option (Handled cfg κ) :=
  match packetParseUnsubscribe pkt 8 with
  | none => some ⟨b.close me, []⟩
  | some (packetId, topics) => do
      let (t, ok, n) ← unsubscribeEach me topics b.table
      let h : Handled cfg κ := ⟨{ b with table := t }, n.map .notify⟩
      some (if ok then h.reply env me (packetBuildUnsuback packetId 4)
        else ⟨h.broker.close me, h.log⟩)

def handlePingreq (env : Env κ) (b : Broker cfg κ) (me : κ) : Handled cfg κ :=
  Handled.reply env me (packetBuildPingresp 2) ⟨b, []⟩

def handleDisconnect (b : Broker cfg κ) (me : κ) : Handled cfg κ :=
  ⟨(b.updateClient me fun c ↦ { c with hasWill := false }).close me, []⟩

/-- The case PUBREL of the `switch`. -/
def handlePubrel (env : Env κ) (b : Broker cfg κ) (me : κ) (id : UInt16) : Handled cfg κ :=
  Handled.reply env me (packetBuildPubcomp id 4) ⟨b.updateClient me (·.qos2Release id), []⟩

/-- The case PUBREC of the `switch`. -/
def handlePubrec (env : Env κ) (b : Broker cfg κ) (me : κ) (id : UInt16) : Handled cfg κ :=
  let (c, frames) := (b.clients me).pubrec id env.now (env.sendOk me)
  ⟨b.updateClient me fun _ ↦ c, frames.map .reply⟩

/-- The `switch` of `client_thread_fn`. -/
def dispatchType (env : Env κ) (b : Broker cfg κ) (me : κ) (pkt : MqttPacket) :
    Option (Handled cfg κ) :=
  -- a second CONNECT is a protocol error
  if pkt.type = PacketType.connect then some ⟨b.close me, []⟩
  else if pkt.type = PacketType.publish then handlePublish env b me pkt
  else if pkt.type = PacketType.subscribe then some (handleSubscribe env b me pkt)
  else if pkt.type = PacketType.unsubscribe then handleUnsubscribe env b me pkt
  else if pkt.type = PacketType.pingreq then some (handlePingreq env b me)
  else if pkt.type = PacketType.disconnect then some (handleDisconnect b me)
  else if pkt.type = PacketType.puback then
    some ⟨b.updateClient me (·.inflightAck pkt.packetId), []⟩
  else if pkt.type = PacketType.pubrec then some (handlePubrec env b me pkt.packetId)
  else if pkt.type = PacketType.pubrel then some (handlePubrel env b me pkt.packetId)
  else if pkt.type = PacketType.pubcomp then
    some ⟨b.updateClient me (·.inflightAck pkt.packetId), []⟩
  else some ⟨b, []⟩

theorem dispatchType_disconnect {pkt : MqttPacket} (h : pkt.type = PacketType.disconnect)
    {env : Env κ} {b : Broker cfg κ} {me : κ} :
    dispatchType env b me pkt = some (handleDisconnect b me) := by
  unfold dispatchType
  rw [h]
  rfl

/-- The case of the `switch` that a packet takes. -/
inductive SwitchCase (env : Env κ) (b : Broker cfg κ) (me : κ) (pkt : MqttPacket) :
    Handled cfg κ → Prop where
  | connect (htype : pkt.type = PacketType.connect) : SwitchCase env b me pkt ⟨b.close me, []⟩
  | publish {h : Handled cfg κ} (htype : pkt.type = PacketType.publish)
      (hrun : handlePublish env b me pkt = some h) : SwitchCase env b me pkt h
  | subscribe (htype : pkt.type = PacketType.subscribe) :
      SwitchCase env b me pkt (handleSubscribe env b me pkt)
  | unsubscribe {h : Handled cfg κ} (htype : pkt.type = PacketType.unsubscribe)
      (hrun : handleUnsubscribe env b me pkt = some h) : SwitchCase env b me pkt h
  | pingreq (htype : pkt.type = PacketType.pingreq) :
      SwitchCase env b me pkt (handlePingreq env b me)
  | disconnect (htype : pkt.type = PacketType.disconnect) :
      SwitchCase env b me pkt (handleDisconnect b me)
  | ack (htype : pkt.type = PacketType.puback ∨ pkt.type = PacketType.pubcomp) :
      SwitchCase env b me pkt ⟨b.updateClient me (·.inflightAck pkt.packetId), []⟩
  | pubrec (htype : pkt.type = PacketType.pubrec) :
      SwitchCase env b me pkt (handlePubrec env b me pkt.packetId)
  | pubrel (htype : pkt.type = PacketType.pubrel) :
      SwitchCase env b me pkt (handlePubrel env b me pkt.packetId)
  | ignored (htype : pkt.type ∉ [PacketType.connect, PacketType.publish, PacketType.subscribe,
      PacketType.unsubscribe, PacketType.pingreq, PacketType.disconnect, PacketType.puback,
      PacketType.pubrec, PacketType.pubrel, PacketType.pubcomp]) : SwitchCase env b me pkt ⟨b, []⟩

theorem dispatchType_cases {env : Env κ} {b : Broker cfg κ} {me : κ} {pkt : MqttPacket}
    {h : Handled cfg κ} (hrun : dispatchType env b me pkt = some h) :
    SwitchCase env b me pkt h := by
  unfold dispatchType at hrun
  rcases ite_eq_iff.mp hrun with ⟨htype, hrun⟩ | ⟨h₁, hrun⟩
  · cases hrun
    exact .connect htype
  rcases ite_eq_iff.mp hrun with ⟨htype, hrun⟩ | ⟨h₂, hrun⟩
  · exact .publish htype hrun
  rcases ite_eq_iff.mp hrun with ⟨htype, hrun⟩ | ⟨h₃, hrun⟩
  · cases hrun
    exact .subscribe htype
  rcases ite_eq_iff.mp hrun with ⟨htype, hrun⟩ | ⟨h₄, hrun⟩
  · exact .unsubscribe htype hrun
  rcases ite_eq_iff.mp hrun with ⟨htype, hrun⟩ | ⟨h₅, hrun⟩
  · cases hrun
    exact .pingreq htype
  rcases ite_eq_iff.mp hrun with ⟨htype, hrun⟩ | ⟨h₆, hrun⟩
  · cases hrun
    exact .disconnect htype
  rcases ite_eq_iff.mp hrun with ⟨htype, hrun⟩ | ⟨h₇, hrun⟩
  · cases hrun
    exact .ack (.inl htype)
  rcases ite_eq_iff.mp hrun with ⟨htype, hrun⟩ | ⟨h₈, hrun⟩
  · cases hrun
    exact .pubrec htype
  rcases ite_eq_iff.mp hrun with ⟨htype, hrun⟩ | ⟨h₉, hrun⟩
  · cases hrun
    exact .pubrel htype
  rcases ite_eq_iff.mp hrun with ⟨htype, hrun⟩ | ⟨h₁₀, hrun⟩
  · cases hrun
    exact .ack (.inr htype)
  · cases hrun
    exact .ignored (by simp [h₁, h₂, h₃, h₄, h₅, h₆, h₇, h₈, h₉, h₁₀])

/-- One round of the loop of `client_thread_fn` after `recv_packet` returned a
packet, for a connection that is still up. -/
def dispatch (env : Env κ) (b : Broker cfg κ) (me : κ) (pkt : MqttPacket) :
    Option (Handled cfg κ) :=
  let b := b.updateClient me fun c ↦ { c with lastSeenMs := env.now }
  if !pkt.headerOk then some ⟨b.close me, []⟩ else dispatchType env b me pkt

end

end MqttBroker
