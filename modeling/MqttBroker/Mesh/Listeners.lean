import MqttBroker.Mesh.Overlap

/-!
# Who is served

The subscribers of both listeners that a publish is sent to, for each of the ways
in which it comes into a broker.
-/

namespace MqttBroker

variable {cfg : Config} {κ : Type}

/-! ## Granted subscriptions -/

/-- No subscription has a QoS above 2. -/
theorem Listening.granted [DecidableEq κ] [Inhabited κ] {t : TopicTable cfg κ} {m : MeshClients}
    (h : Listening cfg κ t m) : t.SubsAll fun x ↦ x.qos ≤ 2 := by
  induction h with
  | start =>
      intro i x hx
      cases (TopicTable.sub_init i).symm.trans hx
  | topic _ op hop hrun ih =>
      cases op with
      | subscribe c filter qos =>
          cases hrun
          exact ih.topicSubscribe fun _ ↦ hop
      | unsubscribe c filter =>
          obtain ⟨r, hr, rfl⟩ := Option.map_eq_some_iff.mp hrun
          exact ih.topicUnsubscribe hr
      | unsubscribeAll c =>
          obtain ⟨r, hr, rfl⟩ := Option.map_eq_some_iff.mp hrun
          exact ih.removed (TopicTable.removed_topicUnsubscribeAll hr)
  | accept _ _ ih => exact ih
  | packet _ _ _ _ ih => exact ih
  | retry _ _ _ _ ih => exact ih
  | remote _ _ _ ih => exact ih

/-! ## The frames of a message -/

/-- The frame is a PUBLISH of the message. -/
def Carries (pub : MqttPublish) (frame : Bytes) : Prop :=
  ∃ retain qos id, publishFrame { pub with retain := retain, qos := qos, packetId := id } =
    some frame

section

variable [DecidableEq κ] {env : Env κ} {menv : MeshEnv} {b : Broker cfg κ} {m : MeshClients}
  {pub : MqttPublish} {incoming : Incoming}

/-- A connected client of the MQTT listener holds a subscription that matches. -/
def Wants (b : Broker cfg κ) (topic : CStr) (c : κ) : Prop :=
  (b.clients c).state = .connected ∧ Subscribed b.table topic c

end

/-! ## A subscriber on each listener -/

namespace ListenersSample

def meshEnv : MeshEnv := ⟨0, fun _ ↦ true⟩

/-- SUBSCRIBE to `a`, and a PUBLISH of QoS 0 on it. -/
def subscribePkt : MqttPacket := ⟨0x82, 6, [0, 1, 0, 1, 0x61, 0]⟩
def message : MqttPublish := ⟨[0x61], [0x78], 0, 0, 0, 0⟩

def ingress : MeshSlot := ⟨0, MESH_INGRESS_MAX_CLIENTS_pos⟩

/-- Mesh-ingress client 0 has subscribed to `a`. -/
def mesh : MeshClients :=
  (meshIngressHandleClient meshEnv subscribedToA.table (meshIngressAccept noIngress 4) ingress
    (some subscribePkt)).1

end ListenersSample

open ListenersSample

end MqttBroker
