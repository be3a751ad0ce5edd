import MqttBroker.Mesh.Link
import MqttBroker.Mesh.Gossip
import MqttBroker.Mesh.Election

/-!
# The messages between two brokers

A HELLO, SUB_NOTIFY or UNSUB_NOTIFY frame is a packed struct as it lies in memory, and a
PUBLISH frame is built and parsed.  `peer_loop` tells them by type and length, and wants a
HELLO first.
-/

namespace MqttBroker

variable {τ : Type}

/-! ## Structs on the wire -/

/-- The value of an `int32_t` with these bytes. -/
def ofHostI32 (a b c d : UInt8) : ℤ :=
  let n : ℕ := a.toNat + b.toNat * 2 ^ 8 + c.toNat * 2 ^ 16 + d.toNat * 2 ^ 24
  if n < 2 ^ 31 then (n : ℤ) else n - 2 ^ 32

/-- An `int32_t` as it lies in memory. -/
def hostI32 (v : ℤ) : Bytes := intBytes (v % 2 ^ 32).toNat

theorem ofHostI32_intBytes {n : ℕ} (h : n < 2 ^ 32) :
    ofHostI32 (UInt8.ofNat n) (UInt8.ofNat (n / 2 ^ 8)) (UInt8.ofNat (n / 2 ^ 16))
      (UInt8.ofNat (n / 2 ^ 24)) = if n < 2 ^ 31 then (n : ℤ) else n - 2 ^ 32 := by
  have hsum : n % 2 ^ 8 + n / 2 ^ 8 % 2 ^ 8 * 2 ^ 8 + n / 2 ^ 16 % 2 ^ 8 * 2 ^ 16 +
      n / 2 ^ 24 % 2 ^ 8 * 2 ^ 24 = n := by omega
  simp only [ofHostI32, UInt8.toNat_ofNat', hsum]

theorem ofHostI32_hostI32 {v : ℤ} (hlo : -2 ^ 31 ≤ v) (hhi : v < 2 ^ 31) :
    ∃ a b c d, hostI32 v = [a, b, c, d] ∧ ofHostI32 a b c d = v := by
  have hn : ((v % 2 ^ 32).toNat : ℤ) = v % 2 ^ 32 := Int.toNat_of_nonneg (by omega)
  rw [hostI32]
  generalize (v % 2 ^ 32).toNat = n at hn
  refine ⟨_, _, _, _, rfl, ?_⟩
  rw [ofHostI32_intBytes (by omega)]
  split_ifs <;> omega

/-- A node id, as it is read from the front of a struct. -/
def nodeIdAt (buf : Bytes) : NodeId := fun i ↦ buf.getD i 0

theorem nodeIdAt_append (id : NodeId) (rest : Bytes) : nodeIdAt (List.ofFn id ++ rest) = id := by
  funext i
  have hi : i.val < (List.ofFn id).length := by
    rw [List.length_ofFn]
    exact i.isLt
  rw [nodeIdAt, List.getD_append _ _ _ _ hi, List.getD_eq_getElem _ _ hi, List.getElem_ofFn]

theorem drop_nodeId (id : NodeId) (rest : Bytes) :
    (List.ofFn id ++ rest).drop P2P_NODE_ID_LEN = rest := List.drop_left' List.length_ofFn

/-- The bytes of a `p2p_announce_t`. -/
def P2pAnnounce.bytes (ann : P2pAnnounce) : Bytes :=
  List.ofFn ann.nodeId ++
    (hostU16 ann.mqttPort ++ hostU16 ann.p2pPort ++ hostI32 ann.score ++ [ann.role])

/-- `(p2p_announce_t *)buf` -/
def readAnnounce (buf : Bytes) : Option P2pAnnounce :=
  match buf.drop P2P_NODE_ID_LEN with
  | [m₀, m₁, p₀, p₁, a, b, c, d, role] =>
      some ⟨nodeIdAt buf, ofHostU16 m₀ m₁, ofHostU16 p₀ p₁, ofHostI32 a b c d, role⟩
  | _ => none

/-- The score is an `int32_t`. -/
def P2pAnnounce.Fits (ann : P2pAnnounce) : Prop := -2 ^ 31 ≤ ann.score ∧ ann.score < 2 ^ 31

theorem readAnnounce_bytes {ann : P2pAnnounce} (h : ann.Fits) :
    readAnnounce ann.bytes = some ann ∧ ann.bytes.length = P2P_ANNOUNCE_SIZE := by
  obtain ⟨a, b, c, d, hbytes, hscore⟩ := ofHostI32_hostI32 h.1 h.2
  unfold readAnnounce P2pAnnounce.bytes
  rw [drop_nodeId, nodeIdAt_append, hbytes]
  simp only [hostU16, List.cons_append, List.nil_append, ofHostU16_hostU16, hscore, true_and]
  rw [List.length_append, List.length_ofFn]
  rfl

/-- The bytes of a `p2p_sub_msg_t` that was zeroed before the filter was copied. -/
def P2pSubMsg.bytes (msg : P2pSubMsg) : Bytes :=
  List.ofFn msg.ownerId ++
    (msg.filter ++ List.replicate (MQTT_TOPIC_MAX - msg.filter.length) 0 ++ [msg.qos])

/-- `sizeof(p2p_sub_msg_t)` -/
def P2P_SUB_MSG_SIZE : ℕ := P2P_NODE_ID_LEN + MQTT_TOPIC_MAX + 1

/-- `(p2p_sub_msg_t *)buf` -/
def readSubMsg (buf : Bytes) : P2pSubMsg :=
  let rest := buf.drop P2P_NODE_ID_LEN
  ⟨nodeIdAt buf, cstr (rest.take MQTT_TOPIC_MAX), rest.getD MQTT_TOPIC_MAX 0⟩

/-- The filter is a string in `MQTT_TOPIC_MAX` bytes. -/
def P2pSubMsg.Fits (msg : P2pSubMsg) : Prop :=
  msg.filter.length < MQTT_TOPIC_MAX ∧ 0 ∉ msg.filter

inductive P2pMsg where
  | hello (ann : P2pAnnounce)
  | subNotify (msg : P2pSubMsg)
  | unsubNotify (msg : P2pSubMsg)
  | publish (msg : P2pPublishMsg)

namespace P2pMsg

/-- The frame that `send_frame` is called with; a message that `build_publish_frame` refuses
has none. -/
def frame : P2pMsg → Option P2pFrame
  | hello ann => some ⟨P2pType.hello, ann.bytes⟩
  | subNotify msg => some ⟨P2pType.subNotify, msg.bytes⟩
  | unsubNotify msg => some ⟨P2pType.unsubNotify, msg.bytes⟩
  | publish msg => (buildPublishFrame msg).map (⟨P2pType.publish, ·⟩)

/-- The strings end within their arrays, and the score is an `int32_t`. -/
def Fits : P2pMsg → Prop
  | hello ann => ann.Fits
  | subNotify msg | unsubNotify msg => msg.Fits
  | publish msg => msg.Fits

end P2pMsg

/-- What the loop of `peer_loop` makes of a frame; other frames are ignored. -/
def peerDispatch (f : P2pFrame) : Option P2pMsg :=
  if f.type = P2pType.subNotify ∧ f.payload.length = P2P_SUB_MSG_SIZE then
    some (.subNotify (readSubMsg f.payload))
  else if f.type = P2pType.unsubNotify ∧ f.payload.length = P2P_SUB_MSG_SIZE then
    some (.unsubNotify (readSubMsg f.payload))
  else if f.type = P2pType.publish then (parsePublishFrame f.payload).map .publish
  else if f.type = P2pType.hello ∧ f.payload.length = P2P_ANNOUNCE_SIZE then
    (readAnnounce f.payload).map .hello
  else none

namespace Link

variable [DecidableEq τ] {owner : τ} {s : Link τ}

/-- `send_frame` was called for these messages, in this order. -/
def Sent (s : Link τ) (ms : List P2pMsg) : Prop :=
  (∀ m ∈ ms, m.Fits) ∧ List.Forall₂ (fun m f ↦ m.frame = some f) ms s.asked

omit [DecidableEq τ] in
/-- A HELLO frame among the frames of messages has the length of one. -/
theorem Sent.hello {ms : List P2pMsg} (h : s.Sent ms) {f : P2pFrame} (hf : f ∈ s.asked)
    (htype : f.type = P2pType.hello) : f.payload.length = P2P_ANNOUNCE_SIZE := by
  obtain ⟨hfits, hframes⟩ := h
  generalize s.asked = fs at hframes hf
  induction hframes with
  | nil => cases hf
  | @cons m g ms fs hg _ ih =>
      rcases List.mem_cons.mp hf with rfl | hf
      · cases m with
        | hello ann =>
            cases hg
            exact (readAnnounce_bytes (hfits _ List.mem_cons_self)).2
        | subNotify msg | unsubNotify msg =>
            cases hg
            simp [P2pType.hello, P2pType.subNotify, P2pType.unsubNotify] at htype
        | publish msg =>
            obtain ⟨buf, -, rfl⟩ := Option.map_eq_some_iff.mp hg
            simp [P2pType.hello, P2pType.publish] at htype
      · exact ih (fun m' hm' ↦ hfits m' (List.mem_cons_of_mem _ hm')) hf

end Link

namespace Sample

/-- A router announces itself. -/
def ann : P2pAnnounce := ⟨fun _ ↦ 7, 1883, 4884, -3, 1⟩

end Sample

end MqttBroker
