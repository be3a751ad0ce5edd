import MqttBroker.Client.State

/-!
# Persistent sessions

The session pool of `session.c`.  The pool is allocated on first use; a
function that gets no pool behaves as the source does when `calloc` fails.
-/

namespace MqttBroker

def SESSION_QUEUE_MAX : ℕ := 8
def SESSION_SUB_MAX : ℕ := 4

structure SessionMsg where
  topic : CStr
  payload : Bytes
  qos : UInt8
  packetId : UInt16
  dup : UInt8
  inUse : Bool
  deriving DecidableEq, Repr

structure Session where
  clientId : CStr
  inUse : Bool
  offline : Bool
  nextPacketId : UInt16
  subFilters : Fin SESSION_SUB_MAX → CStr
  subQos : Fin SESSION_SUB_MAX → UInt8
  subCount : ℕ
  queue : Fin SESSION_QUEUE_MAX → SessionMsg

/-- A session after `memset`. -/
instance : Inhabited Session :=
  ⟨⟨[], false, false, 0, fun _ ↦ [], fun _ ↦ 0, 0, fun _ ↦ ⟨[], [], 0, 0, 0, false⟩⟩⟩

abbrev SessionSlot (cfg : Config) := Fin cfg.maxClients

/-- The static variable `sessions`; `none` before the first allocation. -/
abbrev SessionPool (cfg : Config) := Option (SessionSlot cfg → Session)

variable {cfg : Config}

/-- `session_pool_ensure`. -/
def sessionPoolEnsure (pool : SessionPool cfg) (callocOk : Bool) : SessionPool cfg :=
  match pool with
  | some sessions => some sessions
  | none => if callocOk then some fun _ ↦ default else none

/-- The in-use session of a client id. -/
def findSession (sessions : SessionSlot cfg → Session) (clientId : CStr) :
    Option (SessionSlot cfg) :=
  (List.finRange cfg.maxClients).find? fun i ↦
    (sessions i).inUse && (sessions i).clientId = clientId

/-- A session as it is created. -/
def freshSession (clientId : CStr) : Session :=
  { (default : Session) with clientId := clientId.take (MQTT_CLIENT_ID_MAX - 1), inUse := true }

/-- `session_find_or_create`: the pool, the session's slot and `was_found`. -/
def sessionFindOrCreate (pool : SessionPool cfg) (callocOk : Bool) (clientId : CStr) :
    SessionPool cfg × Option (SessionSlot cfg) × Bool :=
  match sessionPoolEnsure pool callocOk with
  | none => (pool, none, false)
  | some sessions =>
      match findSession sessions clientId with
      | some i => (some sessions, some i, true)
      | none =>
          match (List.finRange cfg.maxClients).find? fun i ↦ !(sessions i).inUse with
          | some i => (some (Function.update sessions i (freshSession clientId)), some i, false)
          | none => (some sessions, none, false)

/-- `session_delete`. -/
def sessionDelete (pool : SessionPool cfg) (clientId : CStr) : SessionPool cfg :=
  pool.map fun sessions ↦
    match findSession sessions clientId with
    | some i => Function.update sessions i { sessions i with inUse := false }
    | none => sessions

namespace Session

/-- `session_save_subs`: at most `SESSION_SUB_MAX` subscriptions are kept. -/
def saveSubs (s : Session) (subs : List (CStr × UInt8)) : Session :=
  { s with
    subFilters := fun i ↦ match subs[i.val]? with
      | some e => e.1.take (MQTT_TOPIC_MAX - 1)
      | none => s.subFilters i
    subQos := fun i ↦ match subs[i.val]? with
      | some e => e.2
      | none => s.subQos i
    subCount := min subs.length SESSION_SUB_MAX
    offline := true }

/-- `session_enqueue`: the session and the return code. -/
def enqueue (s : Session) (pub : MqttPublish) (pktId : UInt16) : Session × ℤ :=
  match (List.finRange SESSION_QUEUE_MAX).find? fun i ↦ !(s.queue i).inUse with
  | some i =>
      let msg : SessionMsg :=
        ⟨pub.topic.take (MQTT_TOPIC_MAX - 1), pub.payload.take MQTT_PAYLOAD_MAX, pub.qos,
          pktId, pub.dup, true⟩
      ({ s with queue := Function.update s.queue i msg }, 0)
  | none => (s, -1)

end Session

/-- The message that `session_drain` rebuilds from a queue entry. -/
def SessionMsg.toPublish (m : SessionMsg) : MqttPublish :=
  ⟨m.topic.take (MQTT_TOPIC_MAX - 1), m.payload, m.qos, 0, m.dup, m.packetId⟩

namespace Session

/-- What `session_drain` does with a queue entry in use. -/
def drainEntry (m : SessionMsg) (now : ℤ) (sendOk : Bool) (r : Client × List Bytes) :
    Client × List Bytes :=
  let pub := m.toPublish
  match packetBuildPublish pub (MQTT_MAX_PACKET_SIZE + 8) with
  | none => r
  | some buf =>
      (r.1.sendAndStore pub buf now sendOk, r.2 ++ [buf])

/-- One round of the loop of `session_drain`. -/
def drainOne (s : Session) (now : ℤ) (sendOk : Bool) (r : Client × List Bytes)
    (i : Fin SESSION_QUEUE_MAX) : Client × List Bytes :=
  if (s.queue i).inUse then drainEntry (s.queue i) now sendOk r else r

/-- `session_drain`: the session, the client and the frames sent. -/
def drain (s : Session) (c : Client) (now : ℤ) (sendOk : Bool) :
    Session × Client × List Bytes :=
  ({ s with queue := fun i ↦ { s.queue i with inUse := false } },
    (List.finRange SESSION_QUEUE_MAX).foldl (s.drainOne now sendOk) (c, []))

/-- The first stored filter that matches the topic. -/
def firstMatch (s : Session) (topic : CStr) (matchFn : CStr → CStr → Bool) :
    Option (Fin SESSION_SUB_MAX) :=
  (List.finRange SESSION_SUB_MAX).find? fun j ↦
    decide (j.val < s.subCount) && matchFn (s.subFilters j) topic

/-- What `session_offline_publish` does with one session, and its count. -/
def offlinePublishOne (s : Session) (pub : MqttPublish) (matchFn : CStr → CStr → Bool) :
    Session × ℕ :=
  if !s.inUse ∨ !s.offline then (s, 0)
  else
    match s.firstMatch pub.topic matchFn with
    | none => (s, 0)
    | some j =>
        let qos := if pub.qos < s.subQos j then pub.qos else s.subQos j
        if 0 < qos then
          let pktId := if s.nextPacketId = 0 then 1 else s.nextPacketId
          let s := { s with nextPacketId := pktId + 1 }
          ((s.enqueue { pub with qos := qos, packetId := pktId } pktId).1, 1)
        else (s, 0)

end Session

/-- `session_offline_publish`: the pool and the return value. -/
def sessionOfflinePublish (pool : SessionPool cfg) (pub : MqttPublish)
    (matchFn : CStr → CStr → Bool) : SessionPool cfg × ℕ :=
  if pub.qos = 0 then (pool, 0)
  else
    match pool with
    | none => (none, 0)
    | some sessions =>
        (some fun i ↦ ((sessions i).offlinePublishOne pub matchFn).1,
          ∑ i, ((sessions i).offlinePublishOne pub matchFn).2)

end MqttBroker
