import MqttBroker.Packet

/-!
# Client connections

`client_t` and the functions of `client.c` that work on one connection's
inflight table.  Sending is told by what the transport does with the frame.
-/

namespace MqttBroker

def CLIENT_INFLIGHT_MAX : ℕ := 4
def CLIENT_INFLIGHT_RETRY_MS : ℤ := 5000
def CLIENT_QOS2_IN_MAX : ℕ := 4

/-- `inflight_t`; `buf` is the first `len` bytes. -/
structure Inflight where
  packetId : UInt16
  buf : Bytes
  sentAtMs : ℤ
  inUse : Bool
  qos : UInt8
  waitingPubcomp : Bool
  deriving DecidableEq, Repr

structure Qos2In where
  packetId : UInt16
  inUse : Bool
  deriving DecidableEq, Repr

/-- The inbound QoS 2 table, `qos2_in[]`. -/
abbrev Qos2Table := Fin CLIENT_QOS2_IN_MAX → Qos2In

inductive ClientState where
  | free
  | connected
  | disconnecting
  deriving DecidableEq, Repr

structure Client where
  fd : ℤ
  state : ClientState
  clientId : CStr
  cleanSession : Bool
  keepalive : UInt16
  lastSeenMs : ℤ
  will : MqttPublish
  hasWill : Bool
  nextPacketId : UInt16
  inflight : Fin CLIENT_INFLIGHT_MAX → Inflight
  qos2In : Qos2Table

/-- A slot of the pool after `memset` and the assignments of `client_alloc`. -/
def clientAllocated (fd : ℤ) : Client where
  fd := fd
  state := .connected
  clientId := []
  cleanSession := false
  keepalive := 0
  lastSeenMs := 0
  will := default
  hasWill := false
  nextPacketId := 0
  inflight _ := ⟨0, [], 0, false, 0, false⟩
  qos2In _ := ⟨0, false⟩

/-- A slot of the pool after `client_pool_init`. -/
instance : Inhabited Client := ⟨{ clientAllocated (-1) with state := .free }⟩

namespace Client

/-- `client_send`, where `sendOk` says whether the transport takes the bytes. -/
def clientSend (c : Client) (sendOk : Bool) : Client :=
  if 0 ≤ c.fd ∧ sendOk then c else { c with state := .disconnecting }

/-- `if (++next_packet_id == 0) ++next_packet_id;` -/
def advancePacketId (id : UInt16) : UInt16 := if id + 1 = 0 then id + 1 + 1 else id + 1

theorem advancePacketId_ne_zero (id : UInt16) : advancePacketId id ≠ 0 := by
  unfold advancePacketId
  split_ifs with h
  · rw [h]
    decide
  · exact h

/-- `client_inflight_store`: the first free entry, or nothing when all are taken. -/
def inflightStore (c : Client) (id : UInt16) (buf : Bytes) (qos : UInt8) (now : ℤ) : Client :=
  match (List.finRange CLIENT_INFLIGHT_MAX).find? fun i ↦ !(c.inflight i).inUse with
  | some i => { c with inflight := Function.update c.inflight i ⟨id, buf, now, true, qos, false⟩ }
  | none => c

/-- `client_inflight_ack`. -/
def inflightAck (c : Client) (id : UInt16) : Client :=
  match (List.finRange CLIENT_INFLIGHT_MAX).find? fun i ↦
      (c.inflight i).inUse && (c.inflight i).packetId = id with
  | some i =>
      { c with inflight := Function.update c.inflight i { c.inflight i with inUse := false } }
  | none => c

/-- The DUP flag of a retransmitted PUBLISH. -/
def setDup : Bytes → Bytes
  | [] => []
  | b :: rest => (b ||| 0x08) :: rest

/-- What `client_inflight_retry` makes of one entry, and the frame it sends. -/
def retryEntry (now : ℤ) (e : Inflight) : Inflight × Option Bytes :=
  if !e.inUse ∨ now - e.sentAtMs < CLIENT_INFLIGHT_RETRY_MS then (e, none)
  else
    let buf := if e.qos = 2 ∧ e.waitingPubcomp then e.buf else setDup e.buf
    ({ e with buf := buf, sentAtMs := now }, some buf)

/-- `client_inflight_retry`: the client and the frames sent. -/
def inflightRetry (c : Client) (now : ℤ) (sendOk : Bool) : Client × List Bytes :=
  let sent := (List.finRange CLIENT_INFLIGHT_MAX).filterMap fun i ↦
    (retryEntry now (c.inflight i)).2
  let c := { c with inflight := fun i ↦ (retryEntry now (c.inflight i)).1 }
  (if sent = [] then c else c.clientSend sendOk, sent)

/-- `c'` is `c` up to the fields that sending changes: the state, the last
packet id and the inflight table. -/
structure SentTo (c c' : Client) : Prop where
  fd : c'.fd = c.fd
  clientId : c'.clientId = c.clientId
  cleanSession : c'.cleanSession = c.cleanSession
  keepalive : c'.keepalive = c.keepalive
  lastSeenMs : c'.lastSeenMs = c.lastSeenMs
  will : c'.will = c.will
  hasWill : c'.hasWill = c.hasWill
  qos2In : c'.qos2In = c.qos2In

theorem SentTo.refl (c : Client) : SentTo c c := ⟨rfl, rfl, rfl, rfl, rfl, rfl, rfl, rfl⟩

theorem SentTo.trans {a b c : Client} (h : SentTo a b) (h' : SentTo b c) : SentTo a c :=
  ⟨h'.1.trans h.1, h'.2.trans h.2, h'.3.trans h.3, h'.4.trans h.4, h'.5.trans h.5,
    h'.6.trans h.6, h'.7.trans h.7, h'.8.trans h.8⟩

theorem nextPacketId_sentTo (c : Client) (id : UInt16) :
    SentTo c { c with nextPacketId := id } := ⟨rfl, rfl, rfl, rfl, rfl, rfl, rfl, rfl⟩

theorem clientSend_sentTo (c : Client) (sendOk : Bool) : SentTo c (c.clientSend sendOk) := by
  unfold clientSend
  split_ifs <;> constructor <;> rfl

theorem clientSend_inflight (c : Client) (sendOk : Bool) :
    (c.clientSend sendOk).inflight = c.inflight := by
  unfold clientSend
  split_ifs <;> rfl

theorem inflightStore_sentTo (c : Client) (id : UInt16) (buf : Bytes) (qos : UInt8) (now : ℤ) :
    SentTo c (c.inflightStore id buf qos now) := by
  unfold inflightStore
  split <;> constructor <;> rfl

theorem inflightAck_sentTo (c : Client) (id : UInt16) : SentTo c (c.inflightAck id) := by
  unfold inflightAck
  split <;> constructor <;> rfl

/-- `client_send` and, for a QoS above 0, `client_inflight_store` after it. -/
def sendAndStore (c : Client) (pub : MqttPublish) (buf : Bytes) (now : ℤ) (sendOk : Bool) :
    Client :=
  let c := c.clientSend sendOk
  if 0 < pub.qos then c.inflightStore pub.packetId buf pub.qos now else c

end Client

end MqttBroker
