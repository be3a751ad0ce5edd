import MqttBroker.Mesh.Ingress

/-!
# The rounds of `broker_mesh_ingress_publish_remote`

What each mesh-ingress client is offered and sent.  The message is read again in
every round, and closing the client that it lives in clears it.
-/

namespace MqttBroker

variable {cfg : Config} {κ : Type}

/-- The topic may stand in a PUBLISH. -/
def PublishTopic (topic : CStr) : Prop := topic ≠ [] ∧ hasWildcard topic = false

instance : DecidablePred PublishTopic := fun _ ↦ inferInstanceAs (Decidable (_ ∧ _))

/-- Client `i` is connected and holds a subscription that matches. -/
def MeshSubscribed (m : MeshClients) (topic : CStr) (i : MeshSlot) : Prop :=
  (m i).inUse = true ∧ ∃ j, (m i).subInUse j = true ∧ mqttTopicMatch ((m i).subs j) topic = true

instance (m : MeshClients) (topic : CStr) : DecidablePred (MeshSubscribed m topic) :=
  fun _ ↦ inferInstanceAs (Decidable (_ ∧ _))

/-- The frame that `packet_build_publish` makes of a message. -/
def publishFrame (pub : MqttPublish) : Option Bytes :=
  packetBuildPublish pub (MQTT_MAX_PACKET_SIZE + 8)

theorem publishTopic_of_frame {pub : MqttPublish} {frame : Bytes}
    (h : publishFrame pub = some frame) : PublishTopic pub.topic := by
  unfold publishFrame packetBuildPublish at h
  rcases ite_eq_iff.mp h with ⟨-, h⟩ | ⟨hbad, -⟩
  · cases h
  · simp only [not_or, Bool.not_eq_true] at hbad
    exact ⟨hbad.2.1, hbad.2.2.1⟩

namespace MeshClient

variable {c : MeshClient} {pub : MqttPublish}

/-- The message that a round offers to a client. -/
def offered (c : MeshClient) (pub : MqttPublish) : Option MqttPublish :=
  if c.inUse then (c.firstSub pub.topic).map fun j ↦ (c.deliver pub j).1 else none

theorem firstSub_isSome_iff (c : MeshClient) (topic : CStr) : (c.firstSub topic).isSome = true ↔
    ∃ j, c.subInUse j = true ∧ mqttTopicMatch (c.subs j) topic = true := by
  simp [firstSub, List.find?_isSome]

theorem offered_isSome_iff (m : MeshClients) (i : MeshSlot) (pub : MqttPublish) :
    ((m i).offered pub).isSome = true ↔ MeshSubscribed m pub.topic i := by
  rw [MeshSubscribed, ← firstSub_isSome_iff, offered]
  split_ifs with huse <;> simp [huse]

theorem offered_eq_some {out : MqttPublish} (h : c.offered pub = some out) :
    c.inUse = true ∧ ∃ j, c.subInUse j = true ∧ c.firstSub pub.topic = some j ∧
      out = (c.deliver pub j).1 := by
  unfold offered at h
  split_ifs at h with huse
  obtain ⟨j, hj, rfl⟩ := Option.map_eq_some_iff.mp h
  have hfound := List.find?_some hj
  simp only [Bool.and_eq_true] at hfound
  exact ⟨huse, j, hfound.1, hj, rfl⟩

/-- The subscriptions and the messages received are the same. -/
structure SameTables (c c' : MeshClient) : Prop where
  inUse : c'.inUse = c.inUse
  subs : c'.subs = c.subs
  qos : c'.qos = c.qos
  subInUse : c'.subInUse = c.subInUse
  qos2In : c'.qos2In = c.qos2In

theorem SameTables.refl (c : MeshClient) : c.SameTables c := ⟨rfl, rfl, rfl, rfl, rfl⟩

theorem SameTables.trans {c c' c'' : MeshClient} (h : c.SameTables c') (h' : c'.SameTables c'') :
    c.SameTables c'' where
  inUse := h'.inUse.trans h.inUse
  subs := h'.subs.trans h.subs
  qos := h'.qos.trans h.qos
  subInUse := h'.subInUse.trans h.subInUse
  qos2In := h'.qos2In.trans h.qos2In

theorem sameTables_inflightAck (c : MeshClient) (id : UInt16) :
    c.SameTables (c.inflightAck id) := by
  unfold inflightAck
  split <;> exact ⟨rfl, rfl, rfl, rfl, rfl⟩

theorem sameTables_inflightPubrec (c : MeshClient) (id : UInt16) (now : ℤ) (sendOk : Bool) :
    c.SameTables (c.inflightPubrec id now sendOk).1 := by
  unfold inflightPubrec
  split
  · exact .refl c
  · split
    · exact .refl c
    · dsimp only
      split_ifs <;> exact ⟨rfl, rfl, rfl, rfl, rfl⟩

theorem sameTables_deliver (c : MeshClient) (pub : MqttPublish)
    (j : Fin MESH_INGRESS_SUBS_PER_CLIENT) : c.SameTables (c.deliver pub j).2 := by
  unfold deliver
  dsimp only
  split_ifs <;> exact ⟨rfl, rfl, rfl, rfl, rfl⟩

theorem SameTables.inflightStore {c c' : MeshClient} (h : c.SameTables c') (id : UInt16)
    (buf : Bytes) (qos : UInt8) (now : ℤ) : c.SameTables (c'.inflightStore id buf qos now) := by
  unfold MeshClient.inflightStore
  split_ifs
  · exact h
  · split
    · exact ⟨h.inUse, h.subs, h.qos, h.subInUse, h.qos2In⟩
    · exact h

/-- The message of a client is the original one, with its own QoS and packet id. -/
theorem deliver_eq (c : MeshClient) (pub : MqttPublish) (j : Fin MESH_INGRESS_SUBS_PER_CLIENT) :
    ∃ qos id, (c.deliver pub j).1 = { pub with qos := qos, packetId := id } ∧
      (qos = pub.qos ∨ qos = c.qos j) ∧ qos ≤ pub.qos ∧ qos ≤ c.qos j ∧ (0 < qos → id ≠ 0) := by
  have hmin : ∃ qos, (if pub.qos < c.qos j then pub.qos else c.qos j) = qos ∧
      (qos = pub.qos ∨ qos = c.qos j) ∧ qos ≤ pub.qos ∧ qos ≤ c.qos j := by
    split_ifs with hlt
    · exact ⟨_, rfl, Or.inl rfl, UInt8.le_refl _, UInt8.le_of_lt hlt⟩
    · exact ⟨_, rfl, Or.inr rfl, UInt8.not_lt.mp hlt, UInt8.le_refl _⟩
  obtain ⟨qos, hqos, hor, hpub, hsub⟩ := hmin
  unfold deliver
  dsimp only
  rw [hqos]
  split_ifs with hpos
  · exact ⟨qos, _, rfl, hor, hpub, hsub, fun _ ↦ Client.advancePacketId_ne_zero _⟩
  · exact ⟨qos, pub.packetId, rfl, hor, hpub, hsub, fun h ↦ absurd h hpos⟩

end MeshClient

/-! ## One round -/

/-- What a round for client `i` with this message causes. -/
structure Round (env : MeshEnv) (m : MeshClients) (i : MeshSlot) (pub : MqttPublish)
    (m' : MeshClients) (l : List MeshOutput) : Prop where
  others : ∀ k, k ≠ i → m' k = m k
  offer : ∀ k out, .offer k out ∈ l ↔ k = i ∧ (m i).offered pub = some out
  send : ∀ k frame ok, .send k frame ok ∈ l ↔
    k = i ∧ ok = env.sendOk i ∧ ((m i).offered pub).bind publishFrame = some frame
  closed : ∀ k, .closed k ∈ l ↔
    k = i ∧ ∃ out, (m i).offered pub = some out ∧ (publishFrame out = none ∨ env.sendOk i = false)
  cleared : .closed i ∈ l → m' i = meshZeroed (-1) false
  kept : .closed i ∉ l → (m i).SameTables (m' i)

theorem meshClientClose_cases (t : TopicTable cfg κ) {m : MeshClients} {i : MeshSlot}
    (huse : (m i).inUse = true) : ∃ notes : List Notify,
      (meshClientClose t m i).2 = notes.map .notify ++ [.closed i] ∧
      (meshClientClose t m i).1 i = meshZeroed (-1) false ∧
      ∀ k, k ≠ i → (meshClientClose t m i).1 k = m k := by
  have hothers : ∀ (l : List (Fin MESH_INGRESS_SUBS_PER_CLIENT)) (r : MeshClients × List Notify),
      ∀ k, k ≠ i → (l.foldl (meshCloseSub t i) r).1 k = r.1 k := by
    intro l
    induction l with
    | nil => exact fun _ _ _ ↦ rfl
    | cons j l ih =>
        intro r k hk
        rw [List.foldl_cons, ih _ k hk]
        unfold meshCloseSub
        split_ifs
        · rfl
        · exact Function.update_of_ne hk _ _
  unfold meshClientClose
  rw [huse]
  simp only [Bool.not_true, Bool.false_eq_true, if_false]
  split_ifs with hdyn
  · exact ⟨_, rfl, Function.update_self _ _ _, fun k hk ↦ by
      rw [Function.update_of_ne hk, hothers _ _ k hk]⟩
  · exact ⟨[], rfl, Function.update_self _ _ _, fun k hk ↦ Function.update_of_ne hk _ _⟩

theorem publishRemoteOne_round (env : MeshEnv) (t : TopicTable cfg κ) (ref : PubRef)
    (m : MeshClients) (log : List MeshOutput) (i : MeshSlot) : ∃ m' l,
      publishRemoteOne env t ref (m, log) i = (m', log ++ l) ∧
        Round env m i (ref.deref m) m' l := by
  cases hoff : (m i).offered (ref.deref m) with
  | none =>
      refine ⟨m, [], ?_, fun _ _ ↦ rfl, by simp [hoff], by simp [hoff], by simp [hoff], by simp,
        fun _ ↦ ⟨rfl, rfl, rfl, rfl, rfl⟩⟩
      unfold publishRemoteOne
      unfold MeshClient.offered at hoff
      split_ifs at hoff with huse
      · rw [Option.map_eq_none_iff] at hoff
        simp [huse, hoff]
      · simp [huse]
  | some out =>
      obtain ⟨huse, j, -, hj, hout⟩ := MeshClient.offered_eq_some hoff
      set c := ((m i).deliver (ref.deref m) j).2 with hc
      set m₁ := Function.update m i c with hm₁
      have hsame : (m i).SameTables c := (m i).sameTables_deliver _ j
      have huse₁ : (m₁ i).inUse = true := by rw [hm₁, Function.update_self, hsame.inUse, huse]
      obtain ⟨notes, hlog, hself, hothers⟩ := meshClientClose_cases t huse₁
      have hothers' : ∀ k, k ≠ i → (meshClientClose t m₁ i).1 k = m k := fun k hk ↦
        (hothers k hk).trans (Function.update_of_ne hk _ _)
      have hclosing : publishRemoteOne env t ref (m, log) i =
          (publishFrame out).elim ((meshClientClose t m₁ i).1,
            log ++ [.offer i out] ++ (meshClientClose t m₁ i).2) fun frame ↦
              if env.sendOk i then
                (if 0 < out.qos then
                  Function.update m₁ i (c.inflightStore out.packetId frame out.qos env.now)
                else m₁, log ++ [.offer i out] ++ [.send i frame true])
              else ((meshClientClose t m₁ i).1,
                log ++ [.offer i out] ++ [.send i frame false] ++ (meshClientClose t m₁ i).2) := by
        unfold publishRemoteOne publishFrame
        simp only [huse, Bool.not_true, Bool.false_eq_true, if_false, hj, ← hout, ← hc, ← hm₁]
        cases packetBuildPublish out (MQTT_MAX_PACKET_SIZE + 8) with
        | none => rfl
        | some frame => cases env.sendOk i <;> rfl
      rw [hclosing]
      cases hframe : publishFrame out with
      | none =>
          refine ⟨_, .offer i out :: (meshClientClose t m₁ i).2, by simp, hothers', ?_, ?_, ?_,
            fun _ ↦ hself, fun hno ↦ absurd (by simp [hlog]) hno⟩
          · simp [hlog, hoff, eq_comm]
          · simp [hlog, hoff, hframe]
          · simp [hlog, hoff, hframe]
      | some frame =>
          have hsend : ∀ (k : MeshSlot) (frame' : Bytes) (ok : Bool),
              (k = i ∧ frame' = frame ∧ ok = env.sendOk i) ↔ k = i ∧ ok = env.sendOk i ∧
                ((m i).offered (ref.deref m)).bind publishFrame = some frame' := by
            intro k frame' ok
            rw [hoff, Option.bind_some, hframe, Option.some.injEq]
            exact and_congr_right fun _ ↦ and_comm.trans (and_congr_right fun _ ↦ eq_comm)
          cases hok : env.sendOk i with
          | false =>
              refine ⟨_, .offer i out :: .send i frame false :: (meshClientClose t m₁ i).2,
                by simp, hothers', ?_, ?_, ?_, fun _ ↦ hself, fun hno ↦ absurd (by simp [hlog]) hno⟩
              · simp [hlog, hoff, eq_comm]
              · intro k frame' ok
                rw [← hsend, hok]
                simp [hlog]
              · simp [hlog, hoff, hok]
          | true =>
              set m₂ := if 0 < out.qos then
                Function.update m₁ i (c.inflightStore out.packetId frame out.qos env.now) else m₁
                with hm₂
              refine ⟨m₂, [.offer i out, .send i frame true], by simp [hm₂], fun k hk ↦ ?_, ?_, ?_, ?_,
                fun hno ↦ ?_, fun _ ↦ ?_⟩
              · rw [hm₂]
                split_ifs
                · rw [Function.update_of_ne hk, hm₁, Function.update_of_ne hk]
                · exact Function.update_of_ne hk _ _
              · simp [hoff, eq_comm]
              · intro k frame' ok
                rw [← hsend, hok]
                simp
              · simp [hoff, hok, hframe]
              · simp at hno
              · rw [hm₂]
                split_ifs
                · rw [Function.update_self]
                  exact hsame.inflightStore _ _ _ _
                · rwa [hm₁, Function.update_self]

/-! ## All rounds -/

/-- The round for client `i` with this message closes it. -/
def ClosesIn (env : MeshEnv) (m : MeshClients) (pub : MqttPublish) (i : MeshSlot) : Prop :=
  ∃ out, (m i).offered pub = some out ∧ (publishFrame out = none ∨ env.sendOk i = false)

/-- The message that the round for client `i` reads: where the message lives in the
table of a client before it and that client was closed, the entry has been cleared. -/
def PubRef.Cleared (env : MeshEnv) (m : MeshClients) (i : MeshSlot) : PubRef → Prop
  | .value _ => False
  | .qos2In k j => k < i ∧ ClosesIn env m ((m k).qos2In j).pub k

/-- The loop serves client `i` with this message. -/
structure ServedWith (env : MeshEnv) (m : MeshClients) (log : List MeshOutput) (i : MeshSlot)
    (pub : MqttPublish) : Prop where
  offer : ∀ out, .offer i out ∈ log ↔ (m i).offered pub = some out
  send : ∀ frame ok, .send i frame ok ∈ log ↔
    ok = env.sendOk i ∧ ((m i).offered pub).bind publishFrame = some frame
  closed : .closed i ∈ log ↔ ClosesIn env m pub i

/-- What the second round finds behind the pointer after the first. -/
theorem Round.deref {env : MeshEnv} {m m' : MeshClients} {k i : MeshSlot} {ref : PubRef}
    {l : List MeshOutput} (h : Round env m k (ref.deref m) m' l) (hki : k < i)
    (hall : ∀ k', k' < i → k' = k) :
    (ref.Cleared env m i → ref.deref m' = default) ∧
      (¬ ref.Cleared env m i → ref.deref m' = ref.deref m) := by
  cases ref with
  | value pub => exact ⟨False.elim, fun _ ↦ rfl⟩
  | qos2In k' j =>
      simp only [PubRef.Cleared, PubRef.deref] at h ⊢
      by_cases hk : k' = k
      · subst hk
        have hclosed : .closed k' ∈ l ↔ ClosesIn env m ((m k').qos2In j).pub k' := by
          simp [h.closed, ClosesIn]
        refine ⟨fun hc ↦ ?_, fun hc ↦ ?_⟩
        · rw [h.cleared (hclosed.mpr hc.2)]
          rfl
        · rw [(h.kept fun hmem ↦ hc ⟨hki, hclosed.mp hmem⟩).qos2In]
      · refine ⟨fun hc ↦ absurd (hall k' hc.1) hk, fun _ ↦ ?_⟩
        rw [h.others k' hk]

theorem publishRemote_served (env : MeshEnv) (t : TopicTable cfg κ) (ref : PubRef)
    (m : MeshClients) (i : MeshSlot) :
    (ref.Cleared env m i → ServedWith env m (publishRemote env t ref m).2 i default) ∧
      (¬ ref.Cleared env m i → ServedWith env m (publishRemote env t ref m).2 i (ref.deref m)) := by
  have hzero := MESH_INGRESS_MAX_CLIENTS_pos
  have hone : 1 < MESH_INGRESS_MAX_CLIENTS := by decide
  obtain ⟨m₁, l₀, hrun₀, h₀⟩ := publishRemoteOne_round env t ref m [] ⟨0, hzero⟩
  obtain ⟨m₂, l₁, hrun₁, h₁⟩ := publishRemoteOne_round env t ref m₁ l₀ ⟨1, hone⟩
  have hlog : (publishRemote env t ref m).2 = l₀ ++ l₁ := by
    have hslots : List.finRange MESH_INGRESS_MAX_CLIENTS = [⟨0, hzero⟩, ⟨1, hone⟩] := rfl
    rw [publishRemote, hslots, List.foldl_cons, List.foldl_cons, List.foldl_nil, hrun₀,
      List.nil_append, hrun₁]
  have hm₁ : m₁ ⟨1, hone⟩ = m ⟨1, hone⟩ := h₀.others _ (by simp)
  rw [hlog]
  obtain ⟨n, hn⟩ := i
  obtain rfl | rfl : n = 0 ∨ n = 1 := by
    simp only [MESH_INGRESS_MAX_CLIENTS] at hn
    omega
  · have hserved : ServedWith env m (l₀ ++ l₁) ⟨0, hn⟩ (ref.deref m) :=
      ⟨by simp [h₀.offer, h₁.offer], by simp [h₀.send, h₁.send],
        by simp [h₀.closed, h₁.closed, ClosesIn]⟩
    refine ⟨fun hc ↦ ?_, fun _ ↦ hserved⟩
    cases ref with
    | value pub => exact hc.elim
    | qos2In k j => exact absurd hc.1 (Nat.not_lt_zero _)
  · have hserved : ServedWith env m (l₀ ++ l₁) ⟨1, hn⟩ (ref.deref m₁) :=
      ⟨by simp [h₀.offer, h₁.offer, hm₁], by simp [h₀.send, h₁.send, hm₁],
        by simp [h₀.closed, h₁.closed, hm₁, ClosesIn]⟩
    have hderef := h₀.deref (i := ⟨1, hn⟩) (by simp) fun k hk ↦ by
      ext
      exact Nat.lt_one_iff.mp hk
    exact ⟨fun hc ↦ hderef.1 hc ▸ hserved, fun hc ↦ hderef.2 hc ▸ hserved⟩

/-- After the loop a client is closed, or its tables are the same. -/
theorem publishRemote_kept (env : MeshEnv) (t : TopicTable cfg κ) (ref : PubRef) (m : MeshClients)
    (i : MeshSlot) : ((publishRemote env t ref m).1 i).inUse = false ∨
      (m i).SameTables ((publishRemote env t ref m).1 i) := by
  have hfold : ∀ (l : List MeshSlot) (r : MeshResult),
      ((r.1 i).inUse = false ∨ (m i).SameTables (r.1 i)) →
      ((l.foldl (publishRemoteOne env t ref) r).1 i).inUse = false ∨
        (m i).SameTables ((l.foldl (publishRemoteOne env t ref) r).1 i) := by
    intro l
    induction l with
    | nil => exact fun _ hr ↦ hr
    | cons k l ih =>
        intro r hr
        obtain ⟨m', l', hrun, hround⟩ := publishRemoteOne_round env t ref r.1 r.2 k
        refine ih _ ?_
        rw [hrun]
        dsimp only
        by_cases hk : i = k
        · subst hk
          by_cases hclosed : .closed i ∈ l'
          · exact Or.inl (hround.cleared hclosed ▸ rfl)
          · have hkept := hround.kept hclosed
            exact hr.imp (fun h ↦ hkept.inUse.trans h) fun h ↦ h.trans hkept
        · rwa [hround.others i hk]
  exact hfold _ (m, []) (Or.inr (.refl _))

end MqttBroker
