import MqttBroker.Mesh.Listening
import MqttBroker.Mesh.Release
import MqttBroker.Lib.History

/-!
# QoS 2 from mesh-ingress clients

A QoS 2 message waits in the table of the client that sent it, and is published
on its PUBREL.
-/

namespace MqttBroker

open History

variable {cfg : Config} {κ : Type}

/-! ## What a packet publishes -/

/-- The QoS 2 message in a PUBLISH. -/
def ingressQos2 (pkt : MqttPacket) : Option MqttPublish :=
  if pkt.type = PacketType.publish then (packetParsePublish pkt).filter (·.qos = 2) else none

/-- The id in a PUBREL. -/
def pubrelId (pkt : MqttPacket) : Option UInt16 :=
  if pkt.type = PacketType.pubrel then some pkt.packetId else none

/-- The argument of the call of `mesh_publish_from_ingress` while a packet is handled. -/
def ingressCall (m : MeshClients) (i : MeshSlot) (pkt : MqttPacket) : Option PubRef :=
  if pkt.type = PacketType.publish then
    match packetParsePublish pkt with
    | some pub => if pub.qos = 2 then none else some (.value pub)
    | none => none
  else if pkt.type = PacketType.pubrel then
    match (m i).qos2Find pkt.packetId with
    | some j => if !((m i).qos2In j).published then some (.qos2In i j) else none
    | none => none
  else none

theorem ingressCall_eq_none {m : MeshClients} {i : MeshSlot} {pkt : MqttPacket}
    (hpub : pkt.type ≠ PacketType.publish) (hrel : pkt.type ≠ PacketType.pubrel) :
    ingressCall m i pkt = none := by
  unfold ingressCall
  rw [if_neg hpub, if_neg hrel]

/-- What is not caused by publishing. -/
def MeshOutput.IsAnswer : MeshOutput → Prop
  | .propagate _ | .offer _ _ => False
  | _ => True

/-- An answer that is about client `i` alone. -/
def MeshOutput.AnswersTo (i : MeshSlot) : MeshOutput → Prop
  | .propagate _ | .offer _ _ => False
  | .reply k _ | .send k _ _ | .closed k => k = i
  | .notify _ => True

theorem MeshOutput.AnswersTo.isAnswer {i : MeshSlot} {o : MeshOutput} (h : o.AnswersTo i) :
    o.IsAnswer := by
  cases o with
  | propagate | offer => exact h
  | _ => trivial

/-- Handling a packet causes what the call causes, and answers. -/
theorem meshIngressHandleClient_log (env : MeshEnv) (t : TopicTable cfg κ) {m : MeshClients}
    {i : MeshSlot} (huse : (m i).inUse = true) (pkt : MqttPacket) : ∃ answers,
      (meshIngressHandleClient env t m i (some pkt)).2 =
        ((ingressCall m i pkt).elim [] fun ref ↦ (meshPublishFromIngress env t ref m).2) ++ answers ∧
      ∀ o ∈ answers, o.AnswersTo i := by
  have hreply : ∀ frame : Option Bytes, ∀ o ∈ (frame.map (MeshOutput.reply i)).toList,
      o.AnswersTo i := by
    intro frame o ho
    obtain ⟨f, -, rfl⟩ := Option.map_eq_some_iff.mp (Option.mem_toList.mp ho)
    rfl
  have hclose : ∀ o ∈ (meshClientClose t m i).2, o.AnswersTo i := by
    obtain ⟨notes, hlog, -⟩ := meshClientClose_cases t huse
    intro o ho
    rw [hlog] at ho
    rcases List.mem_append.mp ho with ho | ho
    · obtain ⟨n, -, rfl⟩ := List.mem_map.mp ho
      trivial
    · obtain rfl := List.mem_singleton.mp ho
      rfl
  have hnotes : ∀ (notes : List Notify) (frame : Option Bytes),
      ∀ o ∈ notes.map MeshOutput.notify ++ (frame.map (MeshOutput.reply i)).toList, o.AnswersTo i := by
    intro notes frame o ho
    rcases List.mem_append.mp ho with ho | ho
    · obtain ⟨n, -, rfl⟩ := List.mem_map.mp ho
      trivial
    · exact hreply frame o ho
  have hcase := meshIngressHandleClient_case env t huse pkt
  generalize meshIngressHandleClient env t m i (some pkt) = r at hcase ⊢
  cases hcase with
  | publish htype =>
      unfold ingressCall meshHandlePublish
      rw [if_pos htype]
      cases packetParsePublish pkt with
      | none => exact ⟨[], rfl, by simp⟩
      | some pub =>
          dsimp only
          split_ifs with h2 h1
          · cases (m i).qos2Find pub.packetId with
            | some j => exact ⟨_, rfl, hreply _⟩
            | none =>
                cases (m i).qos2Alloc with
                | none => exact ⟨_, rfl, hclose⟩
                | some j => exact ⟨_, rfl, hreply _⟩
          · exact ⟨_, rfl, hreply _⟩
          · exact ⟨[], (List.append_nil _).symm, by simp⟩
  | pubrel htype =>
      have hne : pkt.type ≠ PacketType.publish := by
        rw [htype]
        decide
      unfold ingressCall meshHandlePubrel
      rw [if_neg hne, if_pos htype]
      cases (m i).qos2Find pkt.packetId with
      | none => exact ⟨_, rfl, hreply _⟩
      | some j =>
          dsimp only
          split_ifs
          · exact ⟨_, rfl, hreply _⟩
          · exact ⟨_, rfl, hreply _⟩
  | close hpub hrel =>
      rw [ingressCall_eq_none hpub hrel]
      exact ⟨_, rfl, hclose⟩
  | subscribe htype =>
      rw [ingressCall_eq_none (by rw [htype]; decide) (by rw [htype]; decide)]
      unfold meshHandleSubscribe
      split
      · exact ⟨_, rfl, hnotes _ _⟩
      · exact ⟨_, rfl, hreply _⟩
  | unsubscribe htype =>
      rw [ingressCall_eq_none (by rw [htype]; decide) (by rw [htype]; decide)]
      unfold meshHandleUnsubscribe
      split
      · exact ⟨_, rfl, hnotes _ _⟩
      · exact ⟨_, rfl, hreply _⟩
  | ack htype =>
      rw [ingressCall_eq_none (by rcases htype with htype | htype <;> rw [htype] <;> decide)
        (by rcases htype with htype | htype <;> rw [htype] <;> decide)]
      exact ⟨[], rfl, by simp⟩
  | pubrec htype =>
      rw [ingressCall_eq_none (by rw [htype]; decide) (by rw [htype]; decide)]
      refine ⟨_, rfl, fun o ho ↦ ?_⟩
      obtain ⟨f, -, rfl⟩ := Option.map_eq_some_iff.mp (Option.mem_toList.mp ho)
      rfl
  | pingreq htype =>
      rw [ingressCall_eq_none (by rw [htype]; decide) (by rw [htype]; decide)]
      exact ⟨_, rfl, hreply _⟩

/-! ## Runs of one connection -/

/-- A packet of client `i`, and the connections before it. -/
structure IngressRecord (cfg : Config) (κ : Type) where
  env : MeshEnv
  table : TopicTable cfg κ
  before : MeshClients
  pkt : MqttPacket

namespace IngressRecord

/-- The connections after the packet, and what it caused. -/
def result (r : IngressRecord cfg κ) (i : MeshSlot) : MeshResult :=
  meshIngressHandleClient r.env r.table r.before i (some r.pkt)

/-- What is passed to `mesh_publish_from_ingress`. -/
def passed (r : IngressRecord cfg κ) (i : MeshSlot) : Option MqttPublish :=
  (ingressCall r.before i r.pkt).map (PubRef.deref r.before)

end IngressRecord

/-- The runs of client `i`'s connection while it stays open: between its packets
everything but its own inbound table may change. -/
inductive IngressRun (cfg : Config) (κ : Type) (i : MeshSlot) :
    List (IngressRecord cfg κ) → MeshClients → Prop where
  | start {m : MeshClients} (hfree : ∀ j, ((m i).qos2In j).inUse = false) : IngressRun cfg κ i [] m
  | others {hist : List (IngressRecord cfg κ)} {m m' : MeshClients}
      (hrun : IngressRun cfg κ i hist m) (hsame : (m' i).qos2In = (m i).qos2In) :
      IngressRun cfg κ i hist m'
  | packet {hist : List (IngressRecord cfg κ)} {r : IngressRecord cfg κ}
      (hrun : IngressRun cfg κ i hist r.before) (huse : (r.before i).inUse = true)
      (hopen : ((r.result i).1 i).inUse = true) : IngressRun cfg κ i (hist ++ [r]) (r.result i).1

/-- The first PUBLISH with the id after the last PUBREL for it. -/
def awaiting (id : UInt16) (past : List (IngressRecord cfg κ)) : Option MqttPublish :=
  (since (fun r ↦ pubrelId r.pkt = some id) past).findSome? fun r ↦
    (ingressQos2 r.pkt).filter (·.packetId = id)

/-- The entries in use are unpublished and have different ids. -/
structure MeshClient.Pending (c : MeshClient) : Prop where
  unpublished : ∀ j, (c.qos2In j).inUse = true → (c.qos2In j).published = false
  once : ∀ j k, (c.qos2In j).inUse = true → (c.qos2In k).inUse = true →
    (c.qos2In j).packetId = (c.qos2In k).packetId → j = k

namespace MeshClient

variable {c c' : MeshClient} {id : UInt16} {j : Fin MESH_INGRESS_QOS2_IN_MAX}

/-- The message that waits for the PUBREL with an id. -/
def waiting (c : MeshClient) (id : UInt16) : Option MqttPublish :=
  (c.qos2Find id).map fun j ↦ (c.qos2In j).pub

theorem qos2Find_some (h : c.qos2Find id = some j) :
    (c.qos2In j).inUse = true ∧ (c.qos2In j).packetId = id := by
  simpa using List.find?_some h

theorem qos2Find_none (h : c.qos2Find id = none) (j : Fin MESH_INGRESS_QOS2_IN_MAX)
    (huse : (c.qos2In j).inUse = true) : (c.qos2In j).packetId ≠ id := by
  have hno := List.find?_eq_none.mp h j (List.mem_finRange j)
  simpa [huse] using hno

theorem Pending.waiting_iff (h : c.Pending) {pub : MqttPublish} : c.waiting id = some pub ↔
    ∃ j, (c.qos2In j).inUse = true ∧ (c.qos2In j).packetId = id ∧ (c.qos2In j).pub = pub := by
  unfold waiting
  rw [Option.map_eq_some_iff]
  constructor
  · rintro ⟨j, hj, rfl⟩
    obtain ⟨huse, hid⟩ := qos2Find_some hj
    exact ⟨j, huse, hid, rfl⟩
  · rintro ⟨j, huse, hid, rfl⟩
    cases hfind : c.qos2Find id with
    | none => exact absurd hid (qos2Find_none hfind j huse)
    | some k =>
        obtain ⟨hk, hkid⟩ := qos2Find_some hfind
        exact ⟨k, rfl, by rw [h.once k j hk huse (hkid.trans hid.symm)]⟩

theorem Pending.of_free (h : ∀ j, (c.qos2In j).inUse = false) : c.Pending :=
  ⟨fun j hj ↦ absurd hj (by simp [h j]), fun j _ hj ↦ absurd hj (by simp [h j])⟩

theorem SameTables.pending (h : c.SameTables c') (hc : c.Pending) : c'.Pending := by
  constructor <;> rw [h.qos2In]
  exacts [hc.unpublished, hc.once]

theorem waiting_congr (h : c'.qos2In = c.qos2In) (id : UInt16) : c'.waiting id = c.waiting id := by
  unfold waiting qos2Find
  rw [h]

end MeshClient

/-! ## What a packet does to the waiting messages -/

namespace MeshClient

variable {c : MeshClient} {j : Fin MESH_INGRESS_QOS2_IN_MAX}

theorem Pending.eq_of_iff (h : c.Pending) {id : UInt16} {x : Option MqttPublish}
    (hx : ∀ pub, x = some pub ↔
      ∃ j, (c.qos2In j).inUse = true ∧ (c.qos2In j).packetId = id ∧ (c.qos2In j).pub = pub) :
    c.waiting id = x :=
  Option.ext fun pub ↦ by rw [h.waiting_iff, hx]

/-- The entry of a new message. -/
theorem Pending.store (h : c.Pending) (hfree : (c.qos2In j).inUse = false) {pub : MqttPublish}
    (hnew : c.qos2Find pub.packetId = none) :
    let c' : MeshClient := { c with
      qos2In := Function.update c.qos2In j ⟨pub.packetId, pub, true, false⟩ }
    c'.Pending ∧ ∀ id, c'.waiting id = if pub.packetId = id then some pub else c.waiting id := by
  intro c'
  have hself : c'.qos2In j = ⟨pub.packetId, pub, true, false⟩ := Function.update_self _ _ _
  have hother : ∀ k, k ≠ j → c'.qos2In k = c.qos2In k := fun k hk ↦ Function.update_of_ne hk _ _
  have hp : c'.Pending := by
    refine ⟨fun k hk ↦ ?_, fun k l hk hl hkl ↦ ?_⟩
    · by_cases hkj : k = j
      · rw [hkj, hself]
      · rw [hother k hkj] at hk ⊢
        exact h.unpublished k hk
    · by_cases hkj : k = j <;> by_cases hlj : l = j
      · exact hkj.trans hlj.symm
      · rw [hkj, hself, hother l hlj] at hkl
        rw [hother l hlj] at hl
        exact absurd hkl.symm (qos2Find_none hnew l hl)
      · rw [hlj, hself, hother k hkj] at hkl
        rw [hother k hkj] at hk
        exact absurd hkl (qos2Find_none hnew k hk)
      · rw [hother k hkj] at hk hkl
        rw [hother l hlj] at hl hkl
        exact h.once k l hk hl hkl
  refine ⟨hp, fun id ↦ hp.eq_of_iff fun pub' ↦ ?_⟩
  split_ifs with hid
  · subst hid
    constructor
    · intro heq
      obtain rfl := Option.some.inj heq
      exact ⟨j, by rw [hself], by rw [hself], by rw [hself]⟩
    · rintro ⟨k, hk, hkid, rfl⟩
      by_cases hkj : k = j
      · rw [hkj, hself]
      · rw [hother k hkj] at hk hkid
        exact absurd hkid (qos2Find_none hnew k hk)
  · rw [h.waiting_iff]
    constructor
    · rintro ⟨k, hk, hkid, hpub⟩
      have hkj : k ≠ j := by
        rintro rfl
        rw [hfree] at hk
        cases hk
      exact ⟨k, by rwa [hother k hkj], by rwa [hother k hkj], by rwa [hother k hkj]⟩
    · rintro ⟨k, hk, hkid, hpub⟩
      have hkj : k ≠ j := by
        rintro rfl
        rw [hself] at hkid
        exact hid hkid
      rw [hother k hkj] at hk hkid hpub
      exact ⟨k, hk, hkid, hpub⟩

/-- The entry of a message that has been published. -/
theorem Pending.release (h : c.Pending) (huse : (c.qos2In j).inUse = true) {e : MeshQos2In}
    (he : e.inUse = false) :
    let c' : MeshClient := { c with qos2In := Function.update c.qos2In j e }
    c'.Pending ∧
      ∀ id, c'.waiting id = if (c.qos2In j).packetId = id then none else c.waiting id := by
  intro c'
  have hself : c'.qos2In j = e := Function.update_self _ _ _
  have hother : ∀ k, k ≠ j → c'.qos2In k = c.qos2In k := fun k hk ↦ Function.update_of_ne hk _ _
  have hne : ∀ k, (c'.qos2In k).inUse = true → k ≠ j := by
    rintro k hk rfl
    rw [hself, he] at hk
    cases hk
  have hp : c'.Pending := by
    refine ⟨fun k hk ↦ ?_, fun k l hk hl hkl ↦ ?_⟩
    · have hkj := hne k hk
      rw [hother k hkj] at hk ⊢
      exact h.unpublished k hk
    · have hkj := hne k hk
      have hlj := hne l hl
      rw [hother k hkj] at hk hkl
      rw [hother l hlj] at hl hkl
      exact h.once k l hk hl hkl
  refine ⟨hp, fun id ↦ hp.eq_of_iff fun pub ↦ ?_⟩
  split_ifs with hid
  · refine ⟨fun heq ↦ (nomatch heq), ?_⟩
    rintro ⟨k, hk, hkid, -⟩
    have hkj := hne k hk
    rw [hother k hkj] at hk hkid
    exact absurd (h.once k j hk huse (hkid.trans hid.symm)) hkj
  · rw [h.waiting_iff]
    constructor
    · rintro ⟨k, hk, hkid, hpub⟩
      have hkj : k ≠ j := by
        rintro rfl
        exact hid hkid
      exact ⟨k, by rwa [hother k hkj], by rwa [hother k hkj], by rwa [hother k hkj]⟩
    · rintro ⟨k, hk, hkid, hpub⟩
      have hkj := hne k hk
      rw [hother k hkj] at hk hkid hpub
      exact ⟨k, hk, hkid, hpub⟩

end MeshClient

/-- What an open connection's packet does to its inbound table. -/
theorem packet_pending {r : IngressRecord cfg κ} {i : MeshSlot} (hp : (r.before i).Pending)
    (huse : (r.before i).inUse = true) (hopen : ((r.result i).1 i).inUse = true) :
    ((r.result i).1 i).Pending ∧ ∀ id, ((r.result i).1 i).waiting id =
      if pubrelId r.pkt = some id then none
      else ((r.before i).waiting id).or ((ingressQos2 r.pkt).filter (·.packetId = id)) := by
  obtain ⟨env, t, m, pkt⟩ := r
  simp only [IngressRecord.result] at hp huse hopen ⊢
  have hclosed : ((meshClientClose t m i).1 i).inUse = false := meshClientClose_inUse t m i
  have hsame : ∀ {c : MeshClient}, (m i).qos2In = c.qos2In → ingressQos2 pkt = none →
      pubrelId pkt = none → c.Pending ∧ ∀ id, c.waiting id = if pubrelId pkt = some id then none
        else ((m i).waiting id).or ((ingressQos2 pkt).filter (·.packetId = id)) := by
    intro c hc hpub hrel
    refine ⟨⟨hc ▸ hp.unpublished, hc ▸ hp.once⟩, fun id ↦ ?_⟩
    rw [hpub, hrel, if_neg (by simp), Option.filter_none, Option.or_none,
      MeshClient.waiting_congr hc.symm]
  have hcase := meshIngressHandleClient_case env t huse pkt
  generalize meshIngressHandleClient env t m i (some pkt) = r at hcase hopen ⊢
  cases hcase with
  | publish htype =>
      have hrel : pubrelId pkt = none := if_neg (by rw [htype]; decide)
      have hpub : ingressQos2 pkt = (packetParsePublish pkt).filter (·.qos = 2) := if_pos htype
      unfold meshHandlePublish at hopen ⊢
      cases hparse : packetParsePublish pkt with
      | none =>
          rw [hparse] at hpub
          exact hsame rfl hpub hrel
      | some pub =>
          rw [hparse, Option.filter_some] at hpub
          simp only [hparse] at hopen ⊢
          by_cases h2 : pub.qos = 2
          · rw [if_pos (by simpa using h2)] at hpub
            simp only [h2, if_true] at hopen ⊢
            simp only [hpub, hrel, reduceCtorEq, if_false, Option.filter_some, decide_eq_true_eq]
            cases hfind : (m i).qos2Find pub.packetId with
            | some j =>
                refine ⟨hp, fun id ↦ ?_⟩
                split_ifs with hid
                · subst hid
                  simp [MeshClient.waiting, hfind, MeshResult.replyTo]
                · simp [MeshResult.replyTo]
            | none =>
                simp only [hfind] at hopen ⊢
                cases halloc : (m i).qos2Alloc with
                | none =>
                    simp only [halloc] at hopen
                    rw [hclosed] at hopen
                    cases hopen
                | some j =>
                    have hfree : ((m i).qos2In j).inUse = false := by
                      simpa using List.find?_some halloc
                    obtain ⟨hp', hwait⟩ := hp.store hfree hfind
                    simp only [MeshResult.replyTo, Function.update_self]
                    refine ⟨hp', fun id ↦ (hwait id).trans ?_⟩
                    split_ifs with hid
                    · subst hid
                      simp [MeshClient.waiting, hfind]
                    · simp
          · rw [if_neg (by simpa using h2)] at hpub
            simp only [h2, if_false] at hopen ⊢
            have hkept := publishRemote_kept env t (.value pub) m i
            have hresult : ∀ frame, (MeshResult.replyTo i frame
                (meshPublishFromIngress env t (.value pub) m)).1 =
                  (publishRemote env t (.value pub) m).1 := fun _ ↦ rfl
            have hsplit : (if pub.qos = 1 then MeshResult.replyTo i
                (packetBuildPuback pub.packetId 4) (meshPublishFromIngress env t (.value pub) m)
                  else meshPublishFromIngress env t (.value pub) m).1 =
                    (publishRemote env t (.value pub) m).1 := by
              split_ifs <;> rfl
            rw [hsplit] at hopen ⊢
            rcases hkept with hkept | hkept
            · rw [hkept] at hopen
              cases hopen
            · exact hsame hkept.qos2In.symm hpub hrel
  | pubrel htype =>
      have hrel : pubrelId pkt = some pkt.packetId := if_pos htype
      have hpub : ingressQos2 pkt = none := if_neg (by rw [htype]; decide)
      simp only [hrel, hpub, Option.some.injEq, Option.filter_none, Option.or_none]
      unfold meshHandlePubrel at hopen ⊢
      cases hfind : (m i).qos2Find pkt.packetId with
      | none =>
          refine ⟨hp, fun id ↦ ?_⟩
          split_ifs with hid
          · subst hid
            simp [MeshClient.waiting, hfind, MeshResult.replyTo]
          · rfl
      | some j =>
          obtain ⟨hj, hjid⟩ := MeshClient.qos2Find_some hfind
          have hunpub := hp.unpublished j hj
          simp only [hfind, hunpub, Bool.not_false, if_true, MeshResult.replyTo,
            Function.update_self] at hopen ⊢
          have hkept := publishRemote_kept env t (.qos2In i j) m i
          rw [show (meshPublishFromIngress env t (.qos2In i j) m).1 =
            (publishRemote env t (.qos2In i j) m).1 from rfl] at hopen ⊢
          generalize (publishRemote env t (.qos2In i j) m).1 = m' at hkept hopen ⊢
          rcases hkept with hkept | hkept
          · rw [hkept] at hopen
            cases hopen
          · have hj' : ((m' i).qos2In j).inUse = true := by rwa [hkept.qos2In]
            obtain ⟨hp', hwait⟩ := (hkept.pending hp).release hj'
              (e := { (m' i).qos2In j with published := true, inUse := false }) rfl
            refine ⟨hp', fun id ↦ (hwait id).trans ?_⟩
            rw [hkept.qos2In, hjid, MeshClient.waiting_congr hkept.qos2In]
  | close => simp [hclosed] at hopen
  | subscribe htype =>
      refine hsame ?_ (if_neg (by rw [htype]; decide)) (if_neg (by rw [htype]; decide))
      unfold meshHandleSubscribe
      split
      · simp only [MeshResult.replyTo, Function.update_self]
        unfold meshClientSubscribe
        dsimp only
        split_ifs
        · rfl
        all_goals
          split
          · rfl
          · split <;> rfl
      · rfl
  | unsubscribe htype =>
      refine hsame ?_ (if_neg (by rw [htype]; decide)) (if_neg (by rw [htype]; decide))
      unfold meshHandleUnsubscribe
      split
      · unfold meshClientUnsubscribe
        split_ifs
        · rfl
        all_goals simp [MeshResult.replyTo]
      · rfl
  | ack htype =>
      refine hsame ?_ (if_neg ?_) (if_neg ?_)
      · dsimp only
        rw [Function.update_self, ((m i).sameTables_inflightAck _).qos2In]
      all_goals rcases htype with htype | htype <;> rw [htype] <;> decide
  | pubrec htype =>
      refine hsame ?_ (if_neg (by rw [htype]; decide)) (if_neg (by rw [htype]; decide))
      unfold meshHandlePubrec
      dsimp only
      rw [Function.update_self, ((m i).sameTables_inflightPubrec _ _ _).qos2In]
  | pingreq htype => exact hsame rfl (if_neg (by rw [htype]; decide)) (if_neg (by rw [htype]; decide))

/-! ## Along a run -/

theorem awaiting_concat (id : UInt16) (past : List (IngressRecord cfg κ))
    (r : IngressRecord cfg κ) : awaiting id (past ++ [r]) =
      if pubrelId r.pkt = some id then none
      else (awaiting id past).or ((ingressQos2 r.pkt).filter (·.packetId = id)) := by
  unfold awaiting
  split_ifs with hrel
  · rw [since_concat_pos (by simpa using hrel)]
    rfl
  · rw [since_concat_neg (by simpa using hrel), List.findSome?_append]
    simp

/-- What waits in the table is what the packets make wait. -/
theorem IngressRun.waiting {i : MeshSlot} {hist : List (IngressRecord cfg κ)} {m : MeshClients}
    (h : IngressRun cfg κ i hist m) :
    (m i).Pending ∧ ∀ id, (m i).waiting id = awaiting id hist := by
  induction h with
  | start hfree =>
      have hp := MeshClient.Pending.of_free hfree
      refine ⟨hp, fun id ↦ hp.eq_of_iff fun pub ↦ ?_⟩
      simp [awaiting, hfree]
  | others _ hsame ih =>
      refine ⟨⟨hsame ▸ ih.1.unpublished, hsame ▸ ih.1.once⟩, fun id ↦ ?_⟩
      rw [MeshClient.waiting_congr hsame, ih.2]
  | packet _ huse hopen ih =>
      obtain ⟨hp, hwait⟩ := packet_pending ih.1 huse hopen
      refine ⟨hp, fun id ↦ ?_⟩
      rw [hwait, ih.2, awaiting_concat]

namespace IngressRecord

variable {r : IngressRecord cfg κ} {i : MeshSlot}

/-- A PUBREL publishes what waits for it. -/
theorem passed_pubrel (hp : (r.before i).Pending) {id : UInt16} (h : pubrelId r.pkt = some id) :
    r.passed i = (r.before i).waiting id := by
  obtain ⟨hrel, rfl⟩ : r.pkt.type = PacketType.pubrel ∧ r.pkt.packetId = id := by
    simpa [pubrelId] using h
  have hpub : r.pkt.type ≠ PacketType.publish := by
    rw [hrel]
    decide
  unfold passed ingressCall MeshClient.waiting
  rw [if_neg hpub, if_pos hrel]
  cases hfind : (r.before i).qos2Find r.pkt.packetId with
  | none => rfl
  | some j =>
      dsimp only
      rw [hp.unpublished j (MeshClient.qos2Find_some hfind).1]
      rfl

theorem parse_of_qos2 {pkt : MqttPacket} {pub : MqttPublish} (h : ingressQos2 pkt = some pub) :
    pkt.type = PacketType.publish ∧ packetParsePublish pkt = some pub ∧ pub.qos = 2 := by
  simpa [ingressQos2, Option.filter_eq_some_iff] using h

/-- A QoS 2 message is not published when it arrives. -/
theorem passed_qos2 {pub : MqttPublish} (h : ingressQos2 r.pkt = some pub) :
    r.passed i = none := by
  obtain ⟨htype, hparse, hqos⟩ := parse_of_qos2 h
  simp [passed, ingressCall, htype, hparse, hqos]

/-- The packet finds no entry of its own and no free one. -/
def TableFull (r : IngressRecord cfg κ) (i : MeshSlot) (id : UInt16) : Prop :=
  ∀ j, ((r.before i).qos2In j).inUse = true ∧ ((r.before i).qos2In j).packetId ≠ id

/-- How a QoS 2 message is answered. -/
theorem result_qos2 (huse : (r.before i).inUse = true) {pub : MqttPublish}
    (h : ingressQos2 r.pkt = some pub) :
    (r.TableFull i pub.packetId ∧ r.result i = meshClientClose r.table r.before i) ∨
      (¬ r.TableFull i pub.packetId ∧
        (r.result i).2 = ((packetBuildPubrec pub.packetId 4).map (MeshOutput.reply i)).toList) := by
  obtain ⟨htype, hparse, hqos⟩ := parse_of_qos2 h
  have hresult : r.result i = meshHandlePublish r.env r.table r.before i r.pkt := by
    simp [result, meshIngressHandleClient, huse, htype]
  rw [hresult]
  unfold meshHandlePublish
  simp only [hparse, hqos, if_true]
  cases hfind : (r.before i).qos2Find pub.packetId with
  | some j => exact .inr ⟨fun hfull ↦ (hfull j).2 (MeshClient.qos2Find_some hfind).2, rfl⟩
  | none =>
      cases halloc : (r.before i).qos2Alloc with
      | none =>
          refine .inl ⟨fun j ↦ ?_, rfl⟩
          have huse : ((r.before i).qos2In j).inUse = true := by
            simpa using List.find?_eq_none.mp halloc j (List.mem_finRange j)
          exact ⟨huse, MeshClient.qos2Find_none hfind j huse⟩
      | some j =>
          have hfree : ((r.before i).qos2In j).inUse = false := by
            simpa using List.find?_some halloc
          refine .inr ⟨fun hfull ↦ ?_, rfl⟩
          rw [(hfull j).1] at hfree
          cases hfree

/-- What is due when a packet arrives after the packets `past`. -/
structure ReleasedOnce (i : MeshSlot) (past : List (IngressRecord cfg κ))
    (r : IngressRecord cfg κ) : Prop where
  /-- one message at most is published -/
  log : ∃ answers, (r.result i).2 = ((ingressCall r.before i r.pkt).elim [] fun ref ↦
      (meshPublishFromIngress r.env r.table ref r.before).2) ++ answers ∧
    ∀ o ∈ answers, o.IsAnswer
  release : ∀ id, pubrelId r.pkt = some id → r.passed i = awaiting id past
  hold : ∀ pub, ingressQos2 r.pkt = some pub → r.passed i = none
  acknowledge : ∀ pub, ingressQos2 r.pkt = some pub → ¬ r.TableFull i pub.packetId →
    (r.result i).2 = ((packetBuildPubrec pub.packetId 4).map (MeshOutput.reply i)).toList
  refuse : ∀ pub, ingressQos2 r.pkt = some pub → r.TableFull i pub.packetId →
    (∀ j frame, MeshOutput.reply j frame ∉ (r.result i).2) ∧ ((r.result i).1 i).inUse = false

theorem releasedOnce {past : List (IngressRecord cfg κ)} (hrun : IngressRun cfg κ i past r.before)
    (huse : (r.before i).inUse = true) : r.ReleasedOnce i past := by
  obtain ⟨hp, hwait⟩ := hrun.waiting
  obtain ⟨answers, hlog, hanswers⟩ := meshIngressHandleClient_log r.env r.table huse r.pkt
  refine ⟨⟨answers, hlog, fun o ho ↦ (hanswers o ho).isAnswer⟩, fun id h ↦ ?_,
    fun pub h ↦ passed_qos2 h, fun pub h hfull ↦ ?_, fun pub h hfull ↦ ?_⟩
  · rw [passed_pubrel hp h, hwait]
  · rcases result_qos2 huse h with ⟨hf, -⟩ | ⟨-, hlog⟩
    · exact absurd hf hfull
    · exact hlog
  · rcases result_qos2 huse h with ⟨-, hclose⟩ | ⟨hf, -⟩
    · rw [hclose]
      refine ⟨fun j frame hmem ↦ ?_, meshClientClose_inUse _ _ _⟩
      obtain ⟨notes, hlog, -⟩ := meshClientClose_cases r.table huse
      rw [hlog] at hmem
      simp at hmem
    · exact absurd hfull hf

end IngressRecord

/-- On every connection to the second listener, as long as it stays open: a
PUBREL publishes the first message with its id since the last PUBREL for it, or
nothing if there is none; a QoS 2 message is not published when it arrives; it
is answered with PUBREC unless it finds the table full, and then it is not
answered. -/
theorem qos2_released_once {i : MeshSlot} {hist : List (IngressRecord cfg κ)} {m : MeshClients}
    (hrun : IngressRun cfg κ i hist m) :
    Along (fun past r ↦ r.ReleasedOnce i past) hist ∧
      ∀ r : IngressRecord cfg κ, r.before = m → (m i).inUse = true → r.ReleasedOnce i hist := by
  refine ⟨?_, fun r hr huse ↦ r.releasedOnce (hr ▸ hrun) (hr ▸ huse)⟩
  induction hrun with
  | start => exact along_nil
  | others _ _ ih => exact ih
  | packet hrun huse _ ih => exact along_concat.mpr ⟨ih, IngressRecord.releasedOnce hrun huse⟩

/-- A PUBLISH with QoS 2 to the topic `a`. -/
def qos2ToA (id : UInt16) : MqttPacket := ⟨0x34, 6, writeStr [0x61] ++ writeU16 id ++ [0x70]⟩

def firstIngress : MeshSlot := ⟨0, MESH_INGRESS_MAX_CLIENTS_pos⟩

/-- One open connection, and no subscriptions. -/
def oneIngress : MeshClients := fun i ↦ meshZeroed 3 (i = firstIngress)

/-- The PUBLISH, and the PUBREL where it has left the connections. -/
def publishRecord : IngressRecord Config.posix ℕ :=
  ⟨⟨0, fun _ ↦ true⟩, topicInit Config.posix ℕ, oneIngress, qos2ToA 7⟩

def pubrelRecord : IngressRecord Config.posix ℕ :=
  ⟨⟨0, fun _ ↦ true⟩, topicInit Config.posix ℕ,
    (publishRecord.result firstIngress).1, ⟨0x62, 2, writeU16 7⟩⟩

/-- The statement at a PUBLISH and its PUBREL. -/
theorem qos2_released_seven : pubrelRecord.ReleasedOnce firstIngress [publishRecord] ∧
    (awaiting 7 [publishRecord]).map (·.payload) = some [0x70] := by
  have hstart : IngressRun Config.posix ℕ firstIngress [] oneIngress := .start fun _ ↦ rfl
  have hrun := hstart.packet (r := publishRecord) rfl rfl
  exact ⟨(qos2_released_once hrun).2 pubrelRecord rfl rfl, by decide⟩

end MqttBroker
