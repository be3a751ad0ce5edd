import MqttBroker.Client.Dispatch

/-!
# The two ends of a connection

`handle_connect`, which looks up the session and resumes it, and `client_free`,
which saves it.  The pieces they are made of are also the steps in which other
threads can interleave.
-/

namespace MqttBroker

namespace Connack

def accepted : UInt8 := 0x00
def unacceptableProto : UInt8 := 0x01
def idRejected : UInt8 := 0x02
def badCredentials : UInt8 := 0x04

end Connack

variable {cfg : Config} {κ : Type}

/-! ## Tests on a CONNECT -/

/-- The test that `CONFIG_MQTT_AUTH_ENABLED` compiles in. -/
def authOk (cfg : Config) (conn : MqttConnect) : Bool :=
  match cfg.auth with
  | none => true
  | some (username, password) =>
      conn.hasUsername && conn.hasPassword && conn.username = username &&
        conn.password = password

/-- The tests of `handle_connect`; an error is the code of the CONNACK it
sends, if it sends one. -/
def connectCheck (cfg : Config) (pkt : MqttPacket) : Except (Option UInt8) MqttConnect :=
  match packetParseConnect pkt with
  | .error rc => .error (if rc = -2 then some Connack.unacceptableProto else none)
  | .ok conn =>
      if !authOk cfg conn then .error (some Connack.badCredentials)
      else if conn.hasWill ∧ conn.willQos = 3 then .error none
      else if conn.hasWill ∧ (conn.willTopic = [] ∨ hasWildcard conn.willTopic) then
        .error (some Connack.idRejected)
      else if conn.clientId = [] ∧ !conn.cleanSession then .error (some Connack.idRejected)
      else .ok conn

/-- What the tests leave. -/
structure MqttConnect.Checked (conn : MqttConnect) : Prop where
  clientId_lt : conn.clientId.length < MQTT_CLIENT_ID_MAX
  willTopic_nul : 0 ∉ conn.willTopic
  willTopic : conn.hasWill = true → conn.willTopic ≠ [] ∧ hasWildcard conn.willTopic = false
  willPayload : conn.willPayload.length ≤ WILL_PAYLOAD_MAX

theorem connectCheck_ok {pkt : MqttPacket} {conn : MqttConnect}
    (h : connectCheck cfg pkt = .ok conn) : conn.Checked := by
  unfold connectCheck at h
  split at h
  · cases h
  · rename_i conn' hparse
    split_ifs at h with hauth hqos hwill
    obtain rfl := Except.ok.inj h
    obtain ⟨hid, hnul, hpayload⟩ := packetParseConnect_ok hparse
    refine ⟨hid, hnul, fun hhas ↦ ?_, hpayload⟩
    simpa [hhas] using hwill

/-! ## Steps of a connection that begins -/

/-- What `handle_connect` copies into `client_t`. -/
def Client.connectFields (c : Client) (conn : MqttConnect) : Client :=
  { c with
    clientId := conn.clientId.take (MQTT_CLIENT_ID_MAX - 1)
    cleanSession := conn.cleanSession
    keepalive := conn.keepalive
    hasWill := conn.hasWill
    will :=
      if conn.hasWill then
        { c.will with
          topic := conn.willTopic.take (MQTT_TOPIC_MAX - 1)
          payload := conn.willPayload
          qos := conn.willQos
          retain := conn.willRetain }
      else c.will }

/-- `session_delete` or `session_find_or_create`: the pool, the session and
`session_present`. -/
def connectSession (pool : SessionPool cfg) (callocOk : Bool) (conn : MqttConnect) :
    SessionPool cfg × Option (SessionSlot cfg) × Bool :=
  if conn.cleanSession then (sessionDelete pool conn.clientId, none, false)
  else sessionFindOrCreate pool callocOk conn.clientId

namespace Broker

/-- What a `session_t *` points to. -/
def session (b : Broker cfg κ) (s : SessionSlot cfg) : Session :=
  match b.sessions with
  | some pool => pool s
  | none => default

def updateSession (b : Broker cfg κ) (s : SessionSlot cfg) (f : Session → Session) :
    Broker cfg κ :=
  { b with sessions := b.sessions.map fun pool ↦ Function.update pool s (f (pool s)) }

end Broker

section

variable [DecidableEq κ]

/-- `client_takeover`. -/
def clientTakeover (b : Broker cfg κ) (newcomer : κ) (clientId : CStr) : Broker cfg κ :=
  { b with
    clients := fun k ↦
      if k ≠ newcomer ∧ (b.clients k).state = .connected ∧
          (b.clients k).clientId.take MQTT_CLIENT_ID_MAX = clientId.take MQTT_CLIENT_ID_MAX then
        { b.clients k with state := .disconnecting }
      else b.clients k }

theorem clientTakeover_me (b : Broker cfg κ) (me : κ) (id : CStr) :
    (clientTakeover b me id).clients me = b.clients me := by
  simp [clientTakeover]

/-- One round of the loop that restores the stored subscriptions. -/
def restoreOne (me : κ) (s : SessionSlot cfg) (h : Handled cfg κ) (i : Fin SESSION_SUB_MAX) :
    Handled cfg κ :=
  if i.val < (h.broker.session s).subCount then
    let (t, _, n) := h.broker.table.topicSubscribe me ((h.broker.session s).subFilters i)
      ((h.broker.session s).subQos i)
    ⟨{ h.broker with table := t }, h.log ++ n.map .notify⟩
  else h

/-- `sess->offline = 0` -/
def markOnline (s : SessionSlot cfg) (h : Handled cfg κ) : Handled cfg κ :=
  ⟨h.broker.updateSession s fun x ↦ { x with offline := false }, h.log⟩

/-- `session_drain` as `handle_connect` calls it. -/
def drainSession (env : Env κ) (me : κ) (s : SessionSlot cfg) (h : Handled cfg κ) :
    Handled cfg κ :=
  let (x, c, frames) := (h.broker.session s).drain (h.broker.clients me) env.now (env.sendOk me)
  ⟨(h.broker.updateSession s fun _ ↦ x).updateClient me fun _ ↦ c, h.log ++ frames.map .reply⟩

/-- The end of `handle_connect` for a session that was found. -/
def resumeSession (env : Env κ) (me : κ) (s : SessionSlot cfg) (h : Handled cfg κ) :
    Handled cfg κ :=
  drainSession env me s
    (markOnline s ((List.finRange SESSION_SUB_MAX).foldl (restoreOne me s) h))

/-- `handle_connect` from `client_takeover` to the CONNACK, with the session
and `session_present`. -/
def connectGreet (env : Env κ) (b : Broker cfg κ) (me : κ) (conn : MqttConnect) :
    Handled cfg κ × Option (SessionSlot cfg) × Bool :=
  let b := (clientTakeover b me conn.clientId).updateClient me (·.connectFields conn)
  let (pool, sess, present) := connectSession b.sessions env.callocOk conn
  (Handled.reply env me (packetBuildConnack (if present then 1 else 0) Connack.accepted 4)
    ⟨{ b with sessions := pool }, []⟩, sess, present)

/-- `handle_connect` from `client_takeover` on. -/
def connectAccepted (env : Env κ) (b : Broker cfg κ) (me : κ) (conn : MqttConnect) :
    Handled cfg κ :=
  match connectGreet env b me conn with
  | (h, some s, true) => resumeSession env me s h
  | (h, _) => h

def handleConnect (env : Env κ) (b : Broker cfg κ) (me : κ) (pkt : MqttPacket) :
    Handled cfg κ :=
  match connectCheck cfg pkt with
  | .ok conn => connectAccepted env b me conn
  | .error code =>
      let h := Handled.reply env me (code.bind fun code ↦ packetBuildConnack 0 code 4) ⟨b, []⟩
      ⟨h.broker.close me, h.log⟩

end

/-! ## Steps of a connection that ends -/

/-- The message of an inflight entry, as `client_free` parses its frame. -/
def Inflight.reparse (e : Inflight) : Option MqttPublish :=
  match e.buf with
  | [] => none
  | flags :: rest => do
      let (rlen, rbytes) ← packetDecodeRemainingLen rest
      packetParsePublish ⟨flags, 0, (rest.drop rbytes).take rlen⟩

namespace Session

/-- One round of the loop of `client_free` over the inflight table. -/
def saveInflight (s : Session) (e : Inflight) : Session :=
  if !e.inUse ∨ e.qos ≠ 1 then s
  else
    match e.reparse with
    | none => s
    | some pub => (s.enqueue { pub with dup := 1 } e.packetId).1

def saveInflights (s : Session) (c : Client) : Session :=
  ((List.finRange CLIENT_INFLIGHT_MAX).map c.inflight).foldl saveInflight s

end Session

section

variable [DecidableEq κ]

/-- `plat_close` at the start of `client_free`. -/
def Client.closeFd (c : Client) : Client := { c with fd := if 0 ≤ c.fd then -1 else c.fd }

/-- The will message of `client_free`. -/
def publishWill (env : Env κ) (b : Broker cfg κ) (me : κ) : Option (Handled cfg κ) :=
  if (b.clients me).hasWill then do
    let h ← callPublish env b (b.clients me).will
    some ⟨h.broker.updateClient me fun c ↦ { c with hasWill := false }, h.log⟩
  else some ⟨b, []⟩

/-- The part of `client_free` for a client without clean session. -/
def persistSession (b : Broker cfg κ) (me : κ) (callocOk : Bool) : Broker cfg κ :=
  let subs := b.table.topicGetClientSubs me SESSION_SUB_MAX
  let (pool, sess, _) := sessionFindOrCreate b.sessions callocOk (b.clients me).clientId
  let b := { b with sessions := pool }
  match sess with
  | none => b
  | some s => b.updateSession s fun x ↦ (x.saveSubs subs).saveInflights (b.clients me)

/-- `client_free`, with what `calloc` answers for the session pool. -/
def clientFree (env : Env κ) (callocOk : Bool) (b : Broker cfg κ) (me : κ) :
    Option (Handled cfg κ) := do
  let h ← publishWill env (b.updateClient me (·.closeFd)) me
  let c := h.broker.clients me
  let b := if c.cleanSession then h.broker else persistSession h.broker me callocOk
  let (t, n) ← b.table.topicUnsubscribeAll me
  let b := { b with table := t }
  let b := if c.cleanSession then { b with sessions := sessionDelete b.sessions c.clientId } else b
  some ⟨b.updateClient me fun c ↦ { c with state := .free }, h.log ++ n.map .notify⟩

/-- `client_alloc` on a free slot. -/
def clientAlloc (b : Broker cfg κ) (me : κ) (fd : ℤ) : Broker cfg κ :=
  b.updateClient me fun _ ↦ clientAllocated fd

end

namespace Sample

def env : Env ℕ := ⟨0, true, fun _ ↦ true⟩

/-- CONNECT of client id `a` without clean session. -/
def connectPkt : MqttPacket :=
  ⟨PacketType.connect, 13, [0, 4, 0x4D, 0x51, 0x54, 0x54, 4, 0, 0, 60, 0, 1, 0x61]⟩

def conn : MqttConnect := ⟨[0x61], false, 60, false, [], [], 0, 0, false, false, [], []⟩

/-- SUBSCRIBE to `t` with QoS 2. -/
def subscribePkt : MqttPacket := ⟨0x82, 6, [0, 1, 0, 1, 0x74, 2]⟩

end Sample

end MqttBroker
