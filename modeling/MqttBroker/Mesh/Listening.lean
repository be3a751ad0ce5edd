import MqttBroker.Mesh.Rounds
import MqttBroker.Topic.FanOut

/-!
# The subscriptions of both listeners

The states that the tables of the MQTT listener and of the mesh-ingress listener
can be in, and what the parsers promise about what is stored there.
-/

namespace MqttBroker

variable {cfg : Config} {κ : Type}

/-! ## Packets of mesh-ingress clients -/

/-- What `mesh_ingress_handle_client` does with a packet, by its type. -/
inductive MeshCase (env : MeshEnv) (t : TopicTable cfg κ) (m : MeshClients) (i : MeshSlot)
    (pkt : MqttPacket) : MeshResult → Prop where
  | publish (htype : pkt.type = PacketType.publish) :
      MeshCase env t m i pkt (meshHandlePublish env t m i pkt)
  | subscribe (htype : pkt.type = PacketType.subscribe) :
      MeshCase env t m i pkt (meshHandleSubscribe m i cfg pkt)
  | unsubscribe (htype : pkt.type = PacketType.unsubscribe) :
      MeshCase env t m i pkt (meshHandleUnsubscribe t m i pkt)
  | ack (htype : pkt.type = PacketType.puback ∨ pkt.type = PacketType.pubcomp) :
      MeshCase env t m i pkt (Function.update m i ((m i).inflightAck pkt.packetId), [])
  | pubrec (htype : pkt.type = PacketType.pubrec) :
      MeshCase env t m i pkt (meshHandlePubrec env m i pkt.packetId)
  | pubrel (htype : pkt.type = PacketType.pubrel) :
      MeshCase env t m i pkt (meshHandlePubrel env t m i pkt.packetId)
  | pingreq (htype : pkt.type = PacketType.pingreq) : MeshCase env t m i pkt
      (MeshResult.replyTo i (packetBuildPingresp (MQTT_MAX_PACKET_SIZE + 8)) (m, []))
  | close (hpub : pkt.type ≠ PacketType.publish) (hrel : pkt.type ≠ PacketType.pubrel) :
      MeshCase env t m i pkt (meshClientClose t m i)

theorem meshIngressHandleClient_case (env : MeshEnv) (t : TopicTable cfg κ) {m : MeshClients}
    {i : MeshSlot} (huse : (m i).inUse = true) (pkt : MqttPacket) :
    MeshCase env t m i pkt (meshIngressHandleClient env t m i (some pkt)) := by
  unfold meshIngressHandleClient
  rw [huse]
  simp only [Bool.not_true, Bool.false_eq_true, if_false]
  split_ifs with h₁ h₂ h₃ h₄ h₅ h₆ h₇ h₈
  · exact .publish h₁
  · exact .subscribe h₂
  · exact .unsubscribe h₃
  · exact .ack (Or.inl h₄)
  · exact .pubrec h₅
  · exact .pubrel h₆
  · exact .ack (Or.inr h₇)
  · exact .pingreq h₈
  · exact .close h₁ h₆

/-! ## Mesh-ingress clients -/

/-- What a mesh-ingress client holds has come through the parsers. -/
structure MeshClient.Parsed (c : MeshClient) : Prop where
  qos_le : ∀ j, c.subInUse j = true → c.qos j ≤ 2
  fits : ∀ j, (c.qos2In j).inUse = true → (c.qos2In j).pub.Fits ∧ (c.qos2In j).pub.qos ≤ 2

namespace MeshClient

variable {c c' : MeshClient}

theorem parsed_zeroed (fd : ℤ) (inUse : Bool) : (meshZeroed fd inUse).Parsed :=
  ⟨fun _ h ↦ (nomatch h), fun _ h ↦ (nomatch h)⟩

theorem SameTables.parsed (h : c.SameTables c') (hc : c.Parsed) : c'.Parsed where
  qos_le j hj := by
    rw [h.subInUse] at hj
    rw [h.qos]
    exact hc.qos_le j hj
  fits j hj := by
    rw [h.qos2In] at hj ⊢
    exact hc.fits j hj

end MeshClient

/-- All clients hold parsed data. -/
def MeshParsed (m : MeshClients) : Prop := ∀ i, (m i).Parsed

namespace MeshParsed

variable {m m' : MeshClients}

theorem update (h : MeshParsed m) (i : MeshSlot) {c : MeshClient} (hc : c.Parsed) :
    MeshParsed (Function.update m i c) := by
  intro k
  by_cases hk : k = i
  · subst hk
    rwa [Function.update_self]
  · rw [Function.update_of_ne hk]
    exact h k

theorem others (h : MeshParsed m) {i : MeshSlot} (hothers : ∀ k, k ≠ i → m' k = m k)
    (hi : (m' i).Parsed) : MeshParsed m' := by
  intro k
  by_cases hk : k = i
  · exact hk ▸ hi
  · exact hothers k hk ▸ h k

theorem close (h : MeshParsed m) (t : TopicTable cfg κ) (i : MeshSlot) :
    MeshParsed (meshClientClose t m i).1 := by
  cases huse : (m i).inUse with
  | false =>
      unfold meshClientClose
      rw [huse]
      exact h
  | true =>
      obtain ⟨-, -, hself, hothers⟩ := meshClientClose_cases t huse
      exact h.others hothers (hself ▸ MeshClient.parsed_zeroed _ _)

theorem round (h : MeshParsed m) {env : MeshEnv} {i : MeshSlot} {pub : MqttPublish}
    {l : List MeshOutput} (hround : Round env m i pub m' l) : MeshParsed m' := by
  refine h.others hround.others ?_
  by_cases hclosed : .closed i ∈ l
  · exact hround.cleared hclosed ▸ MeshClient.parsed_zeroed _ _
  · exact (hround.kept hclosed).parsed (h i)

theorem publishRemote (h : MeshParsed m) (env : MeshEnv) (t : TopicTable cfg κ) (ref : PubRef) :
    MeshParsed (publishRemote env t ref m).1 := by
  have hfold : ∀ (l : List MeshSlot) (r : MeshResult), MeshParsed r.1 →
      MeshParsed (l.foldl (publishRemoteOne env t ref) r).1 := by
    intro l
    induction l with
    | nil => exact fun _ hr ↦ hr
    | cons i l ih =>
        intro r hr
        obtain ⟨m', l', hrun, hround⟩ := publishRemoteOne_round env t ref r.1 r.2 i
        refine ih _ ?_
        rw [hrun]
        exact hr.round hround
  exact hfold _ (m, []) h

theorem subscribe (h : MeshParsed m) (i : MeshSlot) (cfg : Config) (pkt : MqttPacket) :
    MeshParsed (meshHandleSubscribe m i cfg pkt).1 := by
  have hstored : ∀ filter qos, qos ≤ 2 →
      (meshClientSubscribe cfg (m i) filter qos).1.Parsed := by
    intro filter qos hqos
    have hupdate : ∀ (subs : Fin MESH_INGRESS_SUBS_PER_CLIENT → CStr) inUse
        (j : Fin MESH_INGRESS_SUBS_PER_CLIENT), (∀ k, k ≠ j → inUse k = (m i).subInUse k) →
        ({ m i with
          subs := subs
          qos := Function.update (m i).qos j qos
          subInUse := inUse } : MeshClient).Parsed := by
      refine fun _ inUse j hinUse ↦ ⟨fun k hk ↦ ?_, (h i).fits⟩
      by_cases hkj : k = j
      · subst hkj
        simpa using hqos
      · dsimp only at hk ⊢
        rw [Function.update_of_ne hkj]
        exact (h i).qos_le k (hinUse k hkj ▸ hk)
    unfold meshClientSubscribe
    dsimp only
    split_ifs
    · exact h i
    all_goals
      split
      · exact hupdate _ _ _ fun _ _ ↦ rfl
      · split
        · exact h i
        · exact hupdate _ _ _ fun k hk ↦ Function.update_of_ne hk _ _
  unfold meshHandleSubscribe
  split
  · rename_i packetId filter qos rest hparse
    have hqos := (packetParseSubscribe_fits hparse (filter, qos) List.mem_cons_self).2
    exact h.update i (hstored filter qos hqos)
  · exact h

theorem unsubscribe (h : MeshParsed m) (t : TopicTable cfg κ) (i : MeshSlot) (pkt : MqttPacket) :
    MeshParsed (meshHandleUnsubscribe t m i pkt).1 := by
  unfold meshHandleUnsubscribe
  split
  · rename_i filter rest hparse
    unfold meshClientUnsubscribe MeshResult.replyTo
    dsimp only
    split_ifs
    · exact h
    all_goals
      refine h.update i ⟨fun j hj ↦ (h i).qos_le j ?_, (h i).fits⟩
      dsimp only at hj
      split_ifs at hj
      exact hj
  · exact h

theorem publish (h : MeshParsed m) (env : MeshEnv) (t : TopicTable cfg κ) (i : MeshSlot)
    (pkt : MqttPacket) : MeshParsed (meshHandlePublish env t m i pkt).1 := by
  unfold meshHandlePublish
  split
  · exact h
  · rename_i pub hparse
    obtain ⟨htopic, hpayload, hqos⟩ := packetParsePublish_fits hparse
    split_ifs
    · split
      · exact h
      · split
        · exact h.close t i
        · rename_i j _
          refine h.update i ⟨(h i).qos_le, fun k hk ↦ ?_⟩
          by_cases hkj : k = j
          · subst hkj
            simpa using ⟨⟨htopic, hpayload⟩, hqos⟩
          · simp only [Function.update_of_ne hkj] at hk ⊢
            exact (h i).fits k hk
    · exact h.publishRemote env t _
    · exact h.publishRemote env t _

theorem pubrel (h : MeshParsed m) (env : MeshEnv) (t : TopicTable cfg κ) (i : MeshSlot)
    (id : UInt16) : MeshParsed (meshHandlePubrel env t m i id).1 := by
  have hfreed : ∀ {m' : MeshClients} (_ : MeshParsed m') (j : Fin MESH_INGRESS_QOS2_IN_MAX)
      (e : MeshQos2In), e.inUse = false → MeshParsed (Function.update m' i
        { m' i with qos2In := Function.update (m' i).qos2In j e }) := by
    refine fun {m'} h' j e he ↦ h'.update i ⟨(h' i).qos_le, fun k hk ↦ ?_⟩
    by_cases hkj : k = j
    · subst hkj
      simp [he] at hk
    · simp only [Function.update_of_ne hkj] at hk ⊢
      exact (h' i).fits k hk
  unfold meshHandlePubrel MeshResult.replyTo
  dsimp only
  split
  · exact h
  · refine hfreed ?_ _ _ rfl
    split_ifs
    · exact h.publishRemote env t _
    · exact h

/-- Handling a packet keeps what the clients hold parsed. -/
theorem handleClient (h : MeshParsed m) (env : MeshEnv) (t : TopicTable cfg κ) (i : MeshSlot)
    (recvd : Option MqttPacket) : MeshParsed (meshIngressHandleClient env t m i recvd).1 := by
  cases huse : (m i).inUse with
  | false =>
      unfold meshIngressHandleClient
      rw [huse]
      exact h
  | true =>
      cases recvd with
      | none =>
          unfold meshIngressHandleClient
          rw [huse]
          exact h.close t i
      | some pkt =>
          have hcase := meshIngressHandleClient_case env t huse pkt
          generalize meshIngressHandleClient env t m i (some pkt) = r at hcase ⊢
          cases hcase with
          | publish => exact h.publish env t i pkt
          | subscribe => exact h.subscribe i cfg pkt
          | unsubscribe => exact h.unsubscribe t i pkt
          | ack => exact h.update i (((m i).sameTables_inflightAck _).parsed (h i))
          | pubrec => exact h.update i (((m i).sameTables_inflightPubrec _ _ _).parsed (h i))
          | pubrel => exact h.pubrel env t i _
          | pingreq => exact h
          | close => exact h.close t i

theorem retry (h : MeshParsed m) (t : TopicTable cfg κ) (i : MeshSlot) (now : ℤ)
    (sendOk : Fin MESH_INGRESS_INFLIGHT_MAX → Bool) :
    MeshParsed (meshInflightRetry t m i now sendOk).1 := by
  unfold meshInflightRetry
  split_ifs
  · exact h
  · dsimp only
    split
    · exact h.update i ⟨(h i).qos_le, (h i).fits⟩
    · exact h.close t i

theorem accept (h : MeshParsed m) (fd : ℤ) : MeshParsed (meshIngressAccept m fd) := by
  unfold meshIngressAccept meshClientAlloc
  cases List.find? _ _ with
  | none => exact h
  | some i => exact h.update i (MeshClient.parsed_zeroed _ _)

end MeshParsed

/-! ## Runs -/

/-- The parsers let through no QoS above 2. -/
def TopicOp.Granted : TopicOp κ → Prop
  | .subscribe _ _ qos => qos ≤ 2
  | _ => True

/-- The tables of both listeners after a run of the broker. -/
inductive Listening (cfg : Config) (κ : Type) [DecidableEq κ] [Inhabited κ] :
    TopicTable cfg κ → MeshClients → Prop where
  | start : Listening cfg κ (topicInit cfg κ) fun _ ↦ meshZeroed 0 false
  | topic {t t' : TopicTable cfg κ} {m : MeshClients} (h : Listening cfg κ t m) (op : TopicOp κ)
      (hop : op.Granted) (hrun : t.apply op = some t') : Listening cfg κ t' m
  | accept {t : TopicTable cfg κ} {m : MeshClients} (h : Listening cfg κ t m) (fd : ℤ) :
      Listening cfg κ t (meshIngressAccept m fd)
  | packet {t : TopicTable cfg κ} {m : MeshClients} (h : Listening cfg κ t m) (env : MeshEnv)
      (i : MeshSlot) (recvd : Option MqttPacket) :
      Listening cfg κ t (meshIngressHandleClient env t m i recvd).1
  | retry {t : TopicTable cfg κ} {m : MeshClients} (h : Listening cfg κ t m) (i : MeshSlot)
      (now : ℤ) (sendOk : Fin MESH_INGRESS_INFLIGHT_MAX → Bool) :
      Listening cfg κ t (meshInflightRetry t m i now sendOk).1
  /-- a message of a peer -/
  | remote {t : TopicTable cfg κ} {m : MeshClients} (h : Listening cfg κ t m) (env : MeshEnv)
      (pub : MqttPublish) : Listening cfg κ t (publishRemote env t (.value pub) m).1

namespace Listening

variable [DecidableEq κ] [Inhabited κ] {t : TopicTable cfg κ} {m : MeshClients}

theorem isLinked (h : Listening cfg κ t m) : t.IsLinked := by
  induction h with
  | start => exact TopicTable.isLinked_init
  | topic _ op _ hrun ih =>
      obtain ⟨t', hrun', hlinked⟩ := ih.apply op
      exact Option.some.inj (hrun'.symm.trans hrun) ▸ hlinked
  | accept _ _ ih => exact ih
  | packet _ _ _ _ ih => exact ih
  | retry _ _ _ _ ih => exact ih
  | remote _ _ _ ih => exact ih

theorem parsed (h : Listening cfg κ t m) : MeshParsed m := by
  induction h with
  | start => exact fun _ ↦ MeshClient.parsed_zeroed _ _
  | topic _ _ _ _ ih => exact ih
  | accept _ fd ih => exact ih.accept fd
  | packet _ env i recvd ih => exact ih.handleClient env _ i recvd
  | retry _ i now sendOk ih => exact ih.retry _ i now sendOk
  | remote _ env pub ih => exact ih.publishRemote env _ (.value pub)

end Listening

end MqttBroker
