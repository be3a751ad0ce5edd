import MqttBroker.Client.Dispatch
import MqttBroker.Topic.Matchers

/-!
# Mesh-ingress clients

The second listener of `broker.c`.  Its connections share one thread and have
their own small tables; a message may be passed on while it still lives in the
inbound QoS 2 table of the connection that sent it.
-/

namespace MqttBroker

def MESH_INGRESS_MAX_CLIENTS : ℕ := 2
def MESH_INGRESS_SUBS_PER_CLIENT : ℕ := 4
def MESH_INGRESS_INFLIGHT_MAX : ℕ := 4
def MESH_INGRESS_QOS2_IN_MAX : ℕ := 4
def MESH_INGRESS_RETRY_MS : ℤ := 5000

theorem MESH_INGRESS_MAX_CLIENTS_pos : 0 < MESH_INGRESS_MAX_CLIENTS := by decide

/-- `mesh_ingress_qos2_in_t` -/
structure MeshQos2In where
  packetId : UInt16
  pub : MqttPublish
  inUse : Bool
  published : Bool

/-- `mesh_ingress_client_t`; an entry of `inflight` has the fields of `inflight_t`. -/
structure MeshClient where
  fd : ℤ
  inUse : Bool
  nextPacketId : UInt16
  subs : Fin MESH_INGRESS_SUBS_PER_CLIENT → CStr
  qos : Fin MESH_INGRESS_SUBS_PER_CLIENT → UInt8
  subInUse : Fin MESH_INGRESS_SUBS_PER_CLIENT → Bool
  inflight : Fin MESH_INGRESS_INFLIGHT_MAX → Inflight
  qos2In : Fin MESH_INGRESS_QOS2_IN_MAX → MeshQos2In

/-- A slot after `memset`, but for its `fd` and `in_use`. -/
def meshZeroed (fd : ℤ) (inUse : Bool) : MeshClient where
  fd := fd
  inUse := inUse
  nextPacketId := 0
  subs _ := []
  qos _ := 0
  subInUse _ := false
  inflight _ := ⟨0, [], 0, false, 0, false⟩
  qos2In _ := ⟨0, default, false, false⟩

abbrev MeshSlot := Fin MESH_INGRESS_MAX_CLIENTS

/-- The static variable `mesh_clients`. -/
abbrev MeshClients := MeshSlot → MeshClient

/-- What the functions of this module cause, in order. -/
inductive MeshOutput where
  /-- a frame for a connection, its sending unchecked -/
  | reply (i : MeshSlot) (frame : Bytes)
  /-- the message that `packet_build_publish` is given for a connection -/
  | offer (i : MeshSlot) (pub : MqttPublish)
  /-- a frame for a connection, and whether it could be sent -/
  | send (i : MeshSlot) (frame : Bytes) (ok : Bool)
  | closed (c : MeshSlot)
  | notify (n : Notify)
  /-- `p2p_publish_from_local` -/
  | propagate (pub : MqttPublish)
  deriving DecidableEq

/-- What the platform answers while one event is handled. -/
structure MeshEnv where
  /-- `plat_uptime_ms()` -/
  now : ℤ
  /-- `broker_send_all` takes a frame for this connection -/
  sendOk : MeshSlot → Bool

/-- The connections after a function, and what it caused. -/
abbrev MeshResult := MeshClients × List MeshOutput

/-! ## One connection -/

namespace MeshClient

/-- `mesh_qos2_find` -/
def qos2Find (c : MeshClient) (id : UInt16) : Option (Fin MESH_INGRESS_QOS2_IN_MAX) :=
  (List.finRange MESH_INGRESS_QOS2_IN_MAX).find? fun i ↦
    (c.qos2In i).inUse && (c.qos2In i).packetId = id

/-- `mesh_qos2_alloc` -/
def qos2Alloc (c : MeshClient) : Option (Fin MESH_INGRESS_QOS2_IN_MAX) :=
  (List.finRange MESH_INGRESS_QOS2_IN_MAX).find? fun i ↦ !(c.qos2In i).inUse

/-- `mesh_inflight_store` -/
def inflightStore (c : MeshClient) (id : UInt16) (buf : Bytes) (qos : UInt8) (now : ℤ) :
    MeshClient :=
  if id = 0 ∨ buf = [] then c
  else
    match (List.finRange MESH_INGRESS_INFLIGHT_MAX).find? fun i ↦ !(c.inflight i).inUse with
    | some i =>
        { c with inflight := Function.update c.inflight i ⟨id, buf, now, true, qos, false⟩ }
    | none => c

/-- `mesh_inflight_ack` -/
def inflightAck (c : MeshClient) (id : UInt16) : MeshClient :=
  match (List.finRange MESH_INGRESS_INFLIGHT_MAX).find? fun i ↦
      (c.inflight i).inUse && (c.inflight i).packetId = id with
  | some i =>
      { c with inflight := Function.update c.inflight i { c.inflight i with inUse := false } }
  | none => c

/-- `mesh_inflight_pubrec`: the connection, and the PUBREL and whether it was sent.
Unlike `client.c` the entry moves on only if it was. -/
def inflightPubrec (c : MeshClient) (id : UInt16) (now : ℤ) (sendOk : Bool) :
    MeshClient × Option Bytes :=
  match (List.finRange MESH_INGRESS_INFLIGHT_MAX).find? fun i ↦
      (c.inflight i).inUse && (c.inflight i).packetId = id && (c.inflight i).qos = 2 &&
        !(c.inflight i).waitingPubcomp with
  | none => (c, none)
  | some i =>
      match packetBuildPubrel id 4 with
      | none => (c, none)
      | some rel =>
          let e := { c.inflight i with waitingPubcomp := true, sentAtMs := now, buf := rel }
          (if sendOk then { c with inflight := Function.update c.inflight i e } else c, some rel)

/-- What `mesh_inflight_retry` makes of one entry, and the frame it sends. -/
def retryEntry (now : ℤ) (e : Inflight) : Inflight × Option Bytes :=
  if !e.inUse ∨ now - e.sentAtMs < MESH_INGRESS_RETRY_MS then (e, none)
  else
    let buf := if e.qos = 2 ∧ e.waitingPubcomp then e.buf else Client.setDup e.buf
    ({ e with buf := buf, sentAtMs := now }, some buf)

/-- The loop of `mesh_inflight_retry` where every frame can be sent. -/
def inflightRetry (c : MeshClient) (now : ℤ) : MeshClient :=
  { c with inflight := fun i ↦ (retryEntry now (c.inflight i)).1 }

/-- The entries that `mesh_inflight_retry` sends, in order. -/
def retryFrames (c : MeshClient) (now : ℤ) :
    List (Fin MESH_INGRESS_INFLIGHT_MAX × Bytes) :=
  (List.finRange MESH_INGRESS_INFLIGHT_MAX).filterMap fun i ↦
    (retryEntry now (c.inflight i)).2.map (i, ·)

/-- The first subscription that matches, as `broker_mesh_ingress_publish_remote` looks for it. -/
def firstSub (c : MeshClient) (topic : CStr) : Option (Fin MESH_INGRESS_SUBS_PER_CLIENT) :=
  (List.finRange MESH_INGRESS_SUBS_PER_CLIENT).find? fun j ↦
    c.subInUse j && mqttTopicMatch (c.subs j) topic

/-- The message for a connection that holds subscription `j`, and the
connection after its packet id was taken. -/
def deliver (c : MeshClient) (pub : MqttPublish) (j : Fin MESH_INGRESS_SUBS_PER_CLIENT) :
    MqttPublish × MeshClient :=
  let qos := if pub.qos < c.qos j then pub.qos else c.qos j
  if 0 < qos then
    let id := Client.advancePacketId c.nextPacketId
    ({ pub with qos := qos, packetId := id }, { c with nextPacketId := id })
  else ({ pub with qos := qos }, c)

end MeshClient

/-! ## All connections -/

/-- `mesh_client_alloc` -/
def meshClientAlloc (m : MeshClients) (fd : ℤ) : Option (MeshSlot × MeshClients) :=
  ((List.finRange MESH_INGRESS_MAX_CLIENTS).find? fun i ↦ !(m i).inUse).map fun i ↦
    (i, Function.update m i (meshZeroed fd true))

/-- `mesh_filter_refcount` -/
def meshFilterRefcount (m : MeshClients) (filter : CStr) : ℕ :=
  if filter = [] then 0
  else ((List.finRange MESH_INGRESS_MAX_CLIENTS).map fun i ↦
    if (m i).inUse then (List.finRange MESH_INGRESS_SUBS_PER_CLIENT).countP fun j ↦
      (m i).subInUse j && (m i).subs j = filter
    else 0).sum

section

variable {cfg : Config} {κ : Type}

/-- `mesh_filter_can_withdraw` -/
def meshFilterCanWithdraw (t : TopicTable cfg κ) (m : MeshClients) (filter : CStr) : Bool :=
  meshFilterRefcount m filter = 0 && t.filterSubscriberCount filter = 0

/-- One round of the loop of `mesh_client_close`. -/
def meshCloseSub (t : TopicTable cfg κ) (i : MeshSlot) (r : MeshClients × List Notify)
    (j : Fin MESH_INGRESS_SUBS_PER_CLIENT) : MeshClients × List Notify :=
  if !(r.1 i).subInUse j then r
  else
    let filter := (r.1 i).subs j
    let m := Function.update r.1 i
      { r.1 i with subInUse := Function.update (r.1 i).subInUse j false }
    (m, r.2 ++ if meshFilterCanWithdraw t m filter then [.localUnsubscribe filter] else [])

/-- `mesh_client_close` -/
def meshClientClose (t : TopicTable cfg κ) (m : MeshClients) (i : MeshSlot) : MeshResult :=
  if !(m i).inUse then (m, [])
  else
    let (m, notes) :=
      if cfg.p2pDynamic then
        (List.finRange MESH_INGRESS_SUBS_PER_CLIENT).foldl (meshCloseSub t i) (m, [])
      else (m, [])
    (Function.update m i (meshZeroed (-1) false), notes.map .notify ++ [.closed i])

/-- `mesh_client_subscribe`: the connection, the notifications and the return code. -/
def meshClientSubscribe (cfg : Config) (c : MeshClient) (filter : CStr) (qos : UInt8) :
    MeshClient × List Notify × ℤ :=
  let slots := List.finRange MESH_INGRESS_SUBS_PER_CLIENT
  let notes := if cfg.p2pDynamic then [Notify.localSubscribe filter qos] else []
  if filter = [] then (c, [], -1)
  else
    match slots.find? fun j ↦ c.subInUse j && c.subs j = filter with
    | some j => ({ c with qos := Function.update c.qos j qos }, notes, 0)
    | none =>
        match slots.find? fun j ↦ !c.subInUse j with
        | none => (c, [], -1)
        | some j =>
            ({ c with
              subs := Function.update c.subs j (filter.take (MQTT_TOPIC_MAX - 1))
              qos := Function.update c.qos j qos
              subInUse := Function.update c.subInUse j true }, notes, 0)

/-- `mesh_client_unsubscribe` -/
def meshClientUnsubscribe (t : TopicTable cfg κ) (m : MeshClients) (i : MeshSlot)
    (filter : CStr) : MeshClients × List Notify :=
  if filter = [] then (m, [])
  else
    let holds := fun j ↦ (m i).subInUse j && (m i).subs j = filter
    let removed := (List.finRange MESH_INGRESS_SUBS_PER_CLIENT).any holds
    let m := Function.update m i
      { m i with subInUse := fun j ↦ if holds j then false else (m i).subInUse j }
    (m, if cfg.p2pDynamic ∧ removed ∧ meshFilterCanWithdraw t m filter then
      [.localUnsubscribe filter] else [])

/-! ## Publishing -/

/-- A `const mqtt_publish_t *`: a message of the caller's own, or the one in an
entry of a connection's inbound QoS 2 table. -/
inductive PubRef where
  | value (pub : MqttPublish)
  | qos2In (i : MeshSlot) (j : Fin MESH_INGRESS_QOS2_IN_MAX)

/-- The message behind the pointer as the connections are now. -/
def PubRef.deref (m : MeshClients) : PubRef → MqttPublish
  | value pub => pub
  | qos2In i j => ((m i).qos2In j).pub

/-- One round of the outer loop of `broker_mesh_ingress_publish_remote`. -/
def publishRemoteOne (env : MeshEnv) (t : TopicTable cfg κ) (ref : PubRef) (r : MeshResult)
    (i : MeshSlot) : MeshResult :=
  let (m, log) := r
  if !(m i).inUse then r
  else
    let pub := ref.deref m
    match (m i).firstSub pub.topic with
    | none => r
    | some j =>
        let (out, c) := (m i).deliver pub j
        let m := Function.update m i c
        let log := log ++ [.offer i out]
        match packetBuildPublish out (MQTT_MAX_PACKET_SIZE + 8) with
        | none =>
            let (m, closing) := meshClientClose t m i
            (m, log ++ closing)
        | some frame =>
            let log := log ++ [.send i frame (env.sendOk i)]
            if env.sendOk i then
              (if 0 < out.qos then
                Function.update m i (c.inflightStore out.packetId frame out.qos env.now)
              else m, log)
            else
              let (m, closing) := meshClientClose t m i
              (m, log ++ closing)

/-- `broker_mesh_ingress_publish_remote` -/
def publishRemote (env : MeshEnv) (t : TopicTable cfg κ) (ref : PubRef) (m : MeshClients) :
    MeshResult :=
  (List.finRange MESH_INGRESS_MAX_CLIENTS).foldl (publishRemoteOne env t ref) (m, [])

/-- `mesh_publish_from_ingress` -/
def meshPublishFromIngress (env : MeshEnv) (t : TopicTable cfg κ) (ref : PubRef)
    (m : MeshClients) : MeshResult :=
  let (m', log) := publishRemote env t ref m
  (m', (if cfg.p2pDynamic then [.propagate (ref.deref m)] else []) ++ log)

/-! ## Handling a packet -/

namespace MeshResult

def andThen (r : MeshResult) (f : MeshClients → MeshResult) : MeshResult :=
  let (m, log) := f r.1
  (m, r.2 ++ log)

/-- Send a built acknowledgement, its result unused. -/
def replyTo (i : MeshSlot) (frame : Option Bytes) (r : MeshResult) : MeshResult :=
  (r.1, r.2 ++ (frame.map (.reply i)).toList)

end MeshResult

/-- The case PUBLISH of `mesh_ingress_handle_client`. -/
def meshHandlePublish (env : MeshEnv) (t : TopicTable cfg κ) (m : MeshClients) (i : MeshSlot)
    (pkt : MqttPacket) : MeshResult :=
  match packetParsePublish pkt with
  | none => (m, [])
  | some pub =>
      if pub.qos = 2 then
        match (m i).qos2Find pub.packetId with
        | some _ => MeshResult.replyTo i (packetBuildPubrec pub.packetId 4) (m, [])
        | none =>
            match (m i).qos2Alloc with
            | none => meshClientClose t m i
            | some j =>
                let c := { m i with
                  qos2In := Function.update (m i).qos2In j ⟨pub.packetId, pub, true, false⟩ }
                MeshResult.replyTo i (packetBuildPubrec pub.packetId 4)
                  (Function.update m i c, [])
      else
        let r := meshPublishFromIngress env t (.value pub) m
        if pub.qos = 1 then MeshResult.replyTo i (packetBuildPuback pub.packetId 4) r else r

/-- The case SUBSCRIBE; the packet id is read before the filters are. -/
def meshHandleSubscribe (m : MeshClients) (i : MeshSlot) (cfg : Config) (pkt : MqttPacket) :
    MeshResult :=
  match packetParseSubscribe pkt 1 with
  | some (packetId, (filter, qos) :: _) =>
      let (c, notes, rc) := meshClientSubscribe cfg (m i) filter qos
      let granted := if rc = 0 then qos &&& 0x03 else 0x80
      MeshResult.replyTo i (packetBuildSuback packetId [granted] (MQTT_MAX_PACKET_SIZE + 8))
        (Function.update m i c, notes.map .notify)
  | _ =>
      MeshResult.replyTo i (packetBuildSuback pkt.packetId [0x80] (MQTT_MAX_PACKET_SIZE + 8))
        (m, [])

/-- The case UNSUBSCRIBE. -/
def meshHandleUnsubscribe (t : TopicTable cfg κ) (m : MeshClients) (i : MeshSlot)
    (pkt : MqttPacket) : MeshResult :=
  let reply := packetBuildUnsuback pkt.packetId (MQTT_MAX_PACKET_SIZE + 8)
  match packetParseUnsubscribe pkt 1 with
  | some (_, filter :: _) =>
      let (m, notes) := meshClientUnsubscribe t m i filter
      MeshResult.replyTo i reply (m, notes.map .notify)
  | _ => MeshResult.replyTo i reply (m, [])

/-- The case PUBREC. -/
def meshHandlePubrec (env : MeshEnv) (m : MeshClients) (i : MeshSlot) (id : UInt16) :
    MeshResult :=
  let (c, rel) := (m i).inflightPubrec id env.now (env.sendOk i)
  (Function.update m i c, (rel.map fun frame ↦ .send i frame (env.sendOk i)).toList)

/-- The case PUBREL: the message is published where it lies, and its entry
freed whatever has become of the connection. -/
def meshHandlePubrel (env : MeshEnv) (t : TopicTable cfg κ) (m : MeshClients) (i : MeshSlot)
    (id : UInt16) : MeshResult :=
  let r :=
    match (m i).qos2Find id with
    | none => (m, [])
    | some j =>
        let published := ((m i).qos2In j).published
        let (m, log) :=
          if !published then meshPublishFromIngress env t (.qos2In i j) m else (m, [])
        let e := { (m i).qos2In j with
          published := true, inUse := false }
        (Function.update m i { m i with qos2In := Function.update (m i).qos2In j e }, log)
  MeshResult.replyTo i (packetBuildPubcomp id 4) r

/-- `mesh_ingress_handle_client` after `recv_mqtt_packet`, which is `none` where
the receiving failed. -/
def meshIngressHandleClient (env : MeshEnv) (t : TopicTable cfg κ) (m : MeshClients)
    (i : MeshSlot) (recvd : Option MqttPacket) : MeshResult :=
  if !(m i).inUse then (m, [])
  else
    match recvd with
    | none => meshClientClose t m i
    | some pkt =>
        if pkt.type = PacketType.publish then meshHandlePublish env t m i pkt
        else if pkt.type = PacketType.subscribe then meshHandleSubscribe m i cfg pkt
        else if pkt.type = PacketType.unsubscribe then meshHandleUnsubscribe t m i pkt
        else if pkt.type = PacketType.puback then
          (Function.update m i ((m i).inflightAck pkt.packetId), [])
        else if pkt.type = PacketType.pubrec then meshHandlePubrec env m i pkt.packetId
        else if pkt.type = PacketType.pubrel then meshHandlePubrel env t m i pkt.packetId
        else if pkt.type = PacketType.pubcomp then
          (Function.update m i ((m i).inflightAck pkt.packetId), [])
        else if pkt.type = PacketType.pingreq then
          MeshResult.replyTo i (packetBuildPingresp (MQTT_MAX_PACKET_SIZE + 8)) (m, [])
        -- DISCONNECT, or a type that is not handled
        else meshClientClose t m i

/-- `mesh_inflight_retry`; `sendOk` says which entries can be sent. -/
def meshInflightRetry (t : TopicTable cfg κ) (m : MeshClients) (i : MeshSlot) (now : ℤ)
    (sendOk : Fin MESH_INGRESS_INFLIGHT_MAX → Bool) : MeshResult :=
  if !(m i).inUse then (m, [])
  else
    let frames := (m i).retryFrames now
    let sent := frames.takeWhile fun p ↦ sendOk p.1
    let log := sent.map fun p ↦ .send i p.2 true
    match frames.drop sent.length with
    | [] => (Function.update m i ((m i).inflightRetry now), log)
    | p :: _ =>
        let (m, closing) := meshClientClose t m i
        (m, log ++ .send i p.2 false :: closing)

/-- `mesh_ingress_accept_one` after the handshake. -/
def meshIngressAccept (m : MeshClients) (fd : ℤ) : MeshClients :=
  match meshClientAlloc m fd with
  | some (_, m) => m
  | none => m

end

end MqttBroker
