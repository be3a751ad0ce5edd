import MqttBroker.Topic.Overlap
import MqttBroker.Mesh.FirstFrames

/-!
# Overlapping subscriptions on both listeners

`topic_publish` and `broker_mesh_ingress_publish_remote` against the best QoS that the
matching subscriptions of a client grant.
-/

namespace MqttBroker

open FirstMatch

variable {cfg : Config} {κ : Type} {env : MeshEnv} {m : MeshClients}

/-! ## The frames of the rounds -/

namespace MeshClient

variable (c : MeshClient) (pub : MqttPublish)

/-- The QoS that subscription `j` grants. -/
def grant (j : Fin MESH_INGRESS_SUBS_PER_CLIENT) : UInt8 :=
  if pub.qos < c.qos j then pub.qos else c.qos j

variable {c pub}

theorem deliver_grant (c : MeshClient) (pub : MqttPublish)
    (j : Fin MESH_INGRESS_SUBS_PER_CLIENT) : ∃ id,
    (c.deliver pub j).1 = { pub with qos := c.grant pub j, packetId := id } ∧
      (0 < c.grant pub j → id ≠ 0) := by
  unfold deliver grant
  dsimp only
  generalize (if pub.qos < c.qos j then pub.qos else c.qos j) = qos
  split_ifs with hpos
  · exact ⟨_, rfl, fun _ ↦ Client.advancePacketId_ne_zero _⟩
  · exact ⟨pub.packetId, rfl, fun h ↦ absurd h hpos⟩

/-- The frame for a subscription can be built if it grants what a PUBLISH can carry. -/
theorem deliver_frame_iff (hfits : pub.Fits) (htopic : PublishTopic pub.topic)
    (j : Fin MESH_INGRESS_SUBS_PER_CLIENT) :
    (∃ frame, publishFrame (c.deliver pub j).1 = some frame) ↔ c.grant pub j ≤ 2 := by
  obtain ⟨id, heq, hid⟩ := c.deliver_grant pub j
  rw [heq]
  constructor
  · rintro ⟨frame, hframe⟩
    exact (sendable_of_build hframe).qos_le
  · intro hle
    exact publishFrame_of_sendable ⟨hfits.1, htopic.1, htopic.2, hle, hid, hfits.2⟩

end MeshClient

/-- Client `i` is offered the message for subscription `j`. -/
def OfferedFor (m : MeshClients) (topic : CStr) (i : MeshSlot)
    (j : Fin MESH_INGRESS_SUBS_PER_CLIENT) : Prop :=
  (m i).inUse = true ∧ (m i).firstSub topic = some j

theorem offered_iff {pub out : MqttPublish} {i : MeshSlot} : (m i).offered pub = some out ↔
    ∃ j, OfferedFor m pub.topic i j ∧ out = ((m i).deliver pub j).1 := by
  unfold MeshClient.offered OfferedFor
  split_ifs with huse
  · rw [Option.map_eq_some_iff]
    exact exists_congr fun j ↦ by rw [huse, eq_comm (a := out)]; simp
  · simp [huse]

/-- The message lives in the table of a client that is closed before the turn of client `i`. -/
def PubRef.Gone (env : MeshEnv) (m : MeshClients) (i : MeshSlot) : PubRef → Prop
  | .value _ => False
  | .qos2In k l => k < i ∧ ∃ j, OfferedFor m ((m k).qos2In l).pub.topic k j ∧
      (2 < (m k).grant ((m k).qos2In l).pub j ∨ env.sendOk k = false)

theorem PubRef.cleared_iff_gone {ref : PubRef} (hfits : (ref.deref m).Fits)
    (htopic : PublishTopic (ref.deref m).topic) (i : MeshSlot) :
    ref.Cleared env m i ↔ ref.Gone env m i := by
  cases ref with
  | value pub => exact Iff.rfl
  | qos2In k l =>
      have hframe := fun j ↦ MeshClient.deliver_frame_iff (c := m k) hfits htopic j
      refine and_congr_right fun _ ↦ ⟨?_, ?_⟩
      · rintro ⟨out, hout, hfail⟩
        obtain ⟨j, hj, rfl⟩ := offered_iff.mp hout
        refine ⟨j, hj, hfail.imp (fun hnone ↦ UInt8.not_le.mp fun hle ↦ ?_) id⟩
        obtain ⟨frame, hsome⟩ := (hframe j).mpr hle
        cases hnone.symm.trans hsome
      · rintro ⟨j, hj, hfail⟩
        refine ⟨_, offered_iff.mpr ⟨j, hj, rfl⟩, hfail.imp (fun hlt ↦ ?_) id⟩
        refine Option.eq_none_iff_forall_ne_some.mpr fun frame hsome ↦ ?_
        exact absurd ((hframe j).mp ⟨frame, hsome⟩) (UInt8.not_le.mpr hlt)

/-- What is sent to client `i` is a frame of the message as it was when the loop began. -/
theorem mem_publishRemote_send {t : TopicTable cfg κ} {ref : PubRef} {i : MeshSlot}
    {frame : Bytes} {ok : Bool} : .send i frame ok ∈ (publishRemote env t ref m).2 ↔
      ok = env.sendOk i ∧ ¬ ref.Cleared env m i ∧
        ((m i).offered (ref.deref m)).bind publishFrame = some frame := by
  have hserved := publishRemote_served env t ref m i
  by_cases hc : ref.Cleared env m i
  · rw [(hserved.1 hc).send]
    refine iff_of_false (fun ⟨_, h⟩ ↦ ?_) fun h ↦ h.2.1 hc
    obtain ⟨out, hout, hframe⟩ := Option.bind_eq_some_iff.mp h
    obtain ⟨j, -, rfl⟩ := offered_iff.mp hout
    obtain ⟨id, heq, -⟩ := (m i).deliver_grant default j
    rw [heq] at hframe
    exact (publishTopic_of_frame hframe).1 rfl
  · rw [(hserved.2 hc).send]
    simp [hc]

/-! ## The QoS of the frames -/

namespace MeshClient

variable (c : MeshClient) {pub : MqttPublish}

/-- The matching subscriptions of a client. -/
def matchingSubs (topic : CStr) : Set (Fin MESH_INGRESS_SUBS_PER_CLIENT) :=
  {j | c.subInUse j = true ∧ mqttTopicMatch (c.subs j) topic = true}

def grants (topic : CStr) : Set ℕ := (fun j ↦ (c.qos j).toNat) '' c.matchingSubs topic

theorem deliver_frameQos {j : Fin MESH_INGRESS_SUBS_PER_CLIENT} {frame : Bytes}
    (h : publishFrame (c.deliver pub j).1 = some frame) :
    frameQos frame = c.grant pub j ||| qosBits pub.retain := by
  obtain ⟨id, heq, -⟩ := c.deliver_grant pub j
  rw [frameQos_of_build h, heq]

end MeshClient

/-- Each mesh-ingress client is sent the message at the best QoS that its matching
subscriptions grant. -/
def MeshSentBest (m : MeshClients) (pub : MqttPublish) (log : List MeshOutput) : Prop :=
  ∀ i frame ok, .send i frame ok ∈ log →
    Best pub.qos.toNat ((m i).grants pub.topic) (frameQos frame).toNat

/-- The first subscription that matches gives the best QoS, for every client that the
message reaches.  The retain byte is passed on as it is. -/
def MeshFirstBest (env : MeshEnv) (m : MeshClients) (ref : PubRef) : Prop :=
  ∀ i j, OfferedFor m (ref.deref m).topic i j → (m i).grant (ref.deref m) j ≤ 2 →
    ¬ ref.Gone env m i → Best (ref.deref m).qos.toNat ((m i).grants (ref.deref m).topic)
      ((m i).grant (ref.deref m) j ||| qosBits (ref.deref m).retain).toNat

theorem publishRemote_sentBest_iff {t : TopicTable cfg κ} {ref : PubRef}
    (hfits : (ref.deref m).Fits) :
    MeshSentBest m (ref.deref m) (publishRemote env t ref m).2 ↔
      (PublishTopic (ref.deref m).topic → MeshFirstBest env m ref) := by
  constructor
  · intro hbest htopic i j hoffer hle hgone
    rw [← ref.cleared_iff_gone hfits htopic] at hgone
    obtain ⟨frame, hframe⟩ := (MeshClient.deliver_frame_iff hfits htopic j).mpr hle
    rw [← MeshClient.deliver_frameQos (m i) hframe]
    refine hbest i frame _ (mem_publishRemote_send.mpr ⟨rfl, hgone, ?_⟩)
    rw [offered_iff.mpr ⟨j, hoffer, rfl⟩, Option.bind_some, hframe]
  · intro hbest i frame ok hsend
    obtain ⟨-, hcleared, h⟩ := mem_publishRemote_send.mp hsend
    obtain ⟨out, hout, hframe⟩ := Option.bind_eq_some_iff.mp h
    obtain ⟨j, hoffer, rfl⟩ := offered_iff.mp hout
    obtain ⟨id, heq, -⟩ := (m i).deliver_grant (ref.deref m) j
    have htopic : PublishTopic (ref.deref m).topic := by
      have := publishTopic_of_frame hframe
      rwa [heq] at this
    rw [MeshClient.deliver_frameQos (m i) hframe]
    rw [ref.cleared_iff_gone hfits htopic] at hcleared
    exact hbest htopic i j hoffer ((MeshClient.deliver_frame_iff hfits htopic j).mp ⟨_, hframe⟩)
      hcleared

/-! ## Both listeners -/

/-- Clients get a message at the best QoS that their matching subscriptions grant if and only
if that is what the first one to be met grants: of the table the exact one, else the one
linked in last, and of a mesh-ingress client the one in the lowest slot. -/
theorem overlapping_qos [DecidableEq κ] [Inhabited κ] (ops : List (TopicOp κ)) (b : Broker cfg κ)
    (hrun : topicRun cfg ops = some b.table) (env : Env κ) (menv : MeshEnv) (m : MeshClients)
    (ref : PubRef) (hfits : (ref.deref m).Fits) :
    (∃ r, topicPublish env b (ref.deref m) = some r ∧
      (SentBest b.table (ref.deref m) r.sent ↔
        (PublishTopic (ref.deref m).topic → StoreReady b env (ref.deref m) →
          ForemostBest b.table (ref.deref m)))) ∧
    (MeshSentBest m (ref.deref m) (publishRemote menv b.table ref m).2 ↔
      (PublishTopic (ref.deref m).topic → MeshFirstBest menv m ref)) := by
  obtain ⟨t, ht, hlinked⟩ := topicRun_isLinked cfg ops
  obtain rfl : t = b.table := Option.some.inj (ht.symm.trans hrun)
  obtain ⟨r, hr⟩ := exists_topicPublish hlinked env (ref.deref m) true
  refine ⟨⟨r, hr, ?_⟩, publishRemote_sentBest_iff hfits⟩
  rw [topicPublish_sentBest_iff hlinked hfits hr]
  exact ⟨fun h htopic ↦ h htopic.1 htopic.2, fun h hne hplain ↦ h ⟨hne, hplain⟩⟩

namespace OverlapSample

/-- One client subscribes to `#` and to `a`. -/
def subscribes (wild exact : UInt8) : List (TopicOp ℕ) :=
  [.subscribe 0 [Ch.hash] wild, .subscribe 0 [0x61] exact]

def broker (wild exact : UInt8) : Broker Config.posix ℕ :=
  ⟨(((topicInit Config.posix ℕ).topicSubscribe 0 [Ch.hash] wild).1.topicSubscribe 0 [0x61]
    exact).1, none, fun _ ↦ clientAllocated 3, none⟩

/-- A mesh-ingress client with `a` in its first slot and `#` in its second. -/
def mesh (exact wild : UInt8) : MeshClients := fun i ↦
  if i.val = 0 then
    { meshZeroed 4 true with
      subs := fun j ↦ if j.val = 0 then [0x61] else [Ch.hash]
      qos := fun j ↦ if j.val = 0 then exact else wild
      subInUse := fun j ↦ j.val < 2 }
  else meshZeroed (-1) false

def topicEnv : Env ℕ := ⟨0, true, fun _ ↦ true⟩
def meshEnv : MeshEnv := ⟨0, fun _ ↦ true⟩

/-- A message of QoS 1 on `a`. -/
def message : MqttPublish := ⟨[0x61], [0x78], 1, 0, 0, 7⟩

/-- The slot of `#`, and the slot of `a`. -/
def wildSlot : Slot Config.posix := ⟨0, by decide⟩
def exactSlot : Slot Config.posix := ⟨1, by decide⟩

theorem slots_inUse : ∀ i, ((broker 1 2).table.subs i).inUse = true →
    i = wildSlot ∨ i = exactSlot := by
  decide +kernel

end OverlapSample

open OverlapSample

/-- With the greater QoS at the exact subscription, and in the first slot. -/
theorem overlapping_qos_exact_best : (∃ r, topicPublish topicEnv (broker 1 2) message = some r ∧
      SentBest (broker 1 2).table message r.sent) ∧
    MeshSentBest (mesh 2 1) message
      (publishRemote meshEnv (broker 1 2).table (.value message) (mesh 2 1)).2 := by
  obtain ⟨⟨r, hr, hlocal⟩, hmesh⟩ := overlapping_qos (subscribes 1 2) (broker 1 2) rfl topicEnv
    meshEnv (mesh 2 1) (.value message) (by unfold MqttPublish.Fits; decide)
  have hslot : ∀ i, Matching (broker 1 2).table message.topic i → i = wildSlot ∨ i = exactSlot :=
    fun i hi ↦ slots_inUse i hi.1
  refine ⟨⟨r, hr, hlocal.mpr fun _ _ c i hi _ j hj ↦ ?_⟩,
    hmesh.mpr fun _ i j ⟨huse, hfirst⟩ _ _ ↦ ?_⟩
  · rcases hslot i hi.1.1 with rfl | rfl <;> rcases hslot j hj.1 with rfl | rfl <;> decide
  · have hi : i = ⟨0, by decide⟩ := by
      by_contra hne
      have : (mesh 2 1 i).inUse = false := by
        have hval : i.val ≠ 0 := fun h ↦ hne (Fin.ext h)
        simp [mesh, hval, meshZeroed]
      rw [this] at huse
      cases huse
    subst hi
    have hj : j = ⟨0, by decide⟩ := by
      have hfound : (mesh 2 1 ⟨0, by decide⟩).firstSub message.topic = some ⟨0, by decide⟩ := by
        decide
      exact Option.some.inj (hfirst.symm.trans hfound)
    subst hj
    refine ⟨2, ⟨⟨⟨0, by decide⟩, ⟨rfl, by decide⟩, rfl⟩, ?_⟩, rfl⟩
    rintro _ ⟨k, -, rfl⟩
    have hall : ∀ k, ((mesh 2 1 ⟨0, by decide⟩).qos k).toNat ≤ 2 := by decide
    exact hall k

/-- With the greater QoS at the wildcard subscription, and in the second slot, both listeners
send a message of QoS 1 at QoS 0. -/
theorem overlap_below_best : (∃ r, topicPublish topicEnv (broker 1 0) message = some r ∧
      ¬ SentBest (broker 1 0).table message r.sent) ∧
    ¬ MeshSentBest (mesh 0 1) message
      (publishRemote meshEnv (broker 1 0).table (.value message) (mesh 0 1)).2 := by
  have hbelow : ∀ grants : Set ℕ, 1 ∈ grants → ¬ Best message.qos.toNat grants 0 := by
    rintro grants hone ⟨k, hk, hzero⟩
    have hle := hk.2 hone
    have hqos : message.qos.toNat = 1 := rfl
    omega
  constructor
  · have hrun : (topicPublish topicEnv (broker 1 0) message).map
        (fun r ↦ r.sent.map fun s ↦ (s.1, frameQos s.2)) = some [(0, 0)] := by decide +kernel
    obtain ⟨r, hr, hsent⟩ := Option.map_eq_some_iff.mp hrun
    refine ⟨r, hr, fun hbest ↦ ?_⟩
    obtain ⟨s, hs, heq⟩ : ∃ s ∈ r.sent, (s.1, frameQos s.2) = (0, 0) :=
      List.mem_map.mp (by rw [hsent]; exact List.mem_singleton_self _)
    obtain ⟨hclient, hqos⟩ := Prod.ext_iff.mp heq
    have hb := hbest s hs
    rw [show frameQos s.2 = 0 from hqos, show s.1 = 0 from hclient] at hb
    refine absurd hb (hbelow _ ⟨wildSlot, ⟨?_, rfl⟩, rfl⟩)
    unfold Matching
    decide
  · intro hbest
    have hrun : (((mesh 0 1 ⟨0, by decide⟩).offered message).bind publishFrame).map frameQos =
        some 0 := by decide +kernel
    obtain ⟨frame, hframe, hqos⟩ := Option.map_eq_some_iff.mp hrun
    have hb := hbest ⟨0, by decide⟩ frame true (mem_publishRemote_send.mpr ⟨rfl, id, hframe⟩)
    rw [hqos] at hb
    exact absurd hb (hbelow _ ⟨⟨1, by decide⟩, ⟨rfl, by decide⟩, rfl⟩)

end MqttBroker
