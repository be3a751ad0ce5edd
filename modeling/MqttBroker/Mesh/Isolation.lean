import MqttBroker.Mesh.FirstFrames

/-!
# What the message of one client does to another

A message that is passed to the mesh-ingress clients may close those that it cannot be sent
to, and is lost when the client in whose table it lives is closed.
-/

namespace MqttBroker

variable {cfg : Config} {κ : Type} {menv : MeshEnv} {m : MeshClients}

/-! ## What comes in -/

/-- The mesh-ingress client that sent it. -/
def Incoming.sender : Incoming → Option MeshSlot
  | .ingress i _ => some i
  | _ => none

/-- The argument of `broker_mesh_ingress_publish_remote`. -/
def handedOn (m : MeshClients) : Incoming → Option PubRef
  | .client _ => none
  | .ingress i pkt => ingressCall m i pkt
  | .peer buf => (parsePublishFrame buf).map fun msg ↦ .value msg.toPublish

/-- What it causes at the mesh-ingress listener. -/
def meshLog (menv : MeshEnv) (t : TopicTable cfg κ) (m : MeshClients) : Incoming → List MeshOutput
  | .client _ => []
  | .ingress i pkt => (meshIngressHandleClient menv t m i (some pkt)).2
  | .peer buf => match parsePublishFrame buf with
      | none => []
      | some msg => (publishRemote menv t (.value msg.toPublish) m).2

/-- No other client is closed unless a send to it failed, and every client that matches is
offered the message. -/
structure SparesOthers (m : MeshClients) (incoming : Incoming) (log : List MeshOutput) : Prop where
  closed : ∀ k, incoming.sender ≠ some k → .closed k ∈ log → ∃ frame, .send k frame false ∈ log
  offered : ∀ ref, handedOn m incoming = some ref → ∀ k,
    (MeshSubscribed m (ref.deref m).topic k → ∃ out, .offer k out ∈ log) ∧
      ∀ out, .offer k out ∈ log →
        out.topic = (ref.deref m).topic ∧ out.payload = (ref.deref m).payload

/-- The message lives in the table of a client before client `k` that the message itself
closes. -/
def PubRef.Lost (menv : MeshEnv) (m : MeshClients) (k : MeshSlot) : PubRef → Prop
  | .value _ => False
  | .qos2In i j => i < k ∧ MeshSubscribed m ((m i).qos2In j).pub.topic i ∧
      (¬ PublishTopic ((m i).qos2In j).pub.topic ∨ menv.sendOk i = false)

/-- Every other client that matches can be sent a frame, and where the message is lost, what is
found in its place concerns nobody. -/
def Contained (menv : MeshEnv) (m : MeshClients) (incoming : Incoming) (ref : PubRef) : Prop :=
  ∀ k, incoming.sender ≠ some k →
    (MeshSubscribed m (ref.deref m).topic k → PublishTopic (ref.deref m).topic) ∧
      (ref.Lost menv m k → ¬ MeshSubscribed m (ref.deref m).topic k ∧ ¬ MeshSubscribed m [] k)

/-! ## One client -/

section

variable {pub : MqttPublish} {k : MeshSlot} {log : List MeshOutput}

/-- The frame for a client that matches can be built if the topic allows it. -/
theorem offered_frame_iff (hparsed : MeshParsed m) (hfits : pub.Fits) {out : MqttPublish}
    (hout : (m k).offered pub = some out) :
    (∃ frame, publishFrame out = some frame) ↔ PublishTopic pub.topic := by
  obtain ⟨-, j, huse, -, rfl⟩ := MeshClient.offered_eq_some hout
  obtain ⟨qos, id, heq, -, -, hle, hid⟩ := (m k).deliver_eq pub j
  rw [heq]
  constructor
  · rintro ⟨frame, hframe⟩
    have htopic := publishTopic_of_frame hframe
    exact htopic
  · intro htopic
    exact publishFrame_of_sendable ⟨hfits.1, htopic.1, htopic.2,
      UInt8.le_trans hle ((hparsed k).qos_le j huse), hid, hfits.2⟩

theorem closesIn_iff (hparsed : MeshParsed m) (hfits : pub.Fits) :
    ClosesIn menv m pub k ↔
      MeshSubscribed m pub.topic k ∧ (¬ PublishTopic pub.topic ∨ menv.sendOk k = false) := by
  rw [← MeshClient.offered_isSome_iff, Option.isSome_iff_exists]
  have hnone : ∀ {out}, (m k).offered pub = some out →
      (publishFrame out = none ↔ ¬ PublishTopic pub.topic) := by
    intro out hout
    rw [← offered_frame_iff hparsed hfits hout, Option.eq_none_iff_forall_ne_some, not_exists]
  constructor
  · rintro ⟨out, hout, hfail⟩
    exact ⟨⟨out, hout⟩, hfail.imp_left (hnone hout).mp⟩
  · rintro ⟨⟨out, hout⟩, hfail⟩
    exact ⟨out, hout, hfail.imp_left (hnone hout).mpr⟩

theorem PubRef.cleared_iff_lost (hparsed : MeshParsed m) {ref : PubRef}
    (hfits : (ref.deref m).Fits) : ref.Cleared menv m k ↔ ref.Lost menv m k := by
  cases ref with
  | value pub => exact Iff.rfl
  | qos2In i j => exact and_congr_right fun _ ↦ closesIn_iff hparsed hfits

/-- A client that is served is closed without a failed send exactly if no frame can be built
for it. -/
theorem ServedWith.closed_iff (h : ServedWith menv m log k pub) (hparsed : MeshParsed m)
    (hfits : pub.Fits) : (.closed k ∈ log → ∃ frame, .send k frame false ∈ log) ↔
      (MeshSubscribed m pub.topic k → PublishTopic pub.topic) := by
  rw [h.closed, closesIn_iff hparsed hfits]
  constructor
  · intro hsafe hsub
    by_contra htopic
    obtain ⟨frame, hsend⟩ := hsafe ⟨hsub, .inl htopic⟩
    obtain ⟨out, hout, hframe⟩ := Option.bind_eq_some_iff.mp ((h.send frame false).mp hsend).2
    exact htopic ((offered_frame_iff hparsed hfits hout).mp ⟨frame, hframe⟩)
  · rintro hbuilt ⟨hsub, hfail⟩
    have htopic := hbuilt hsub
    obtain ⟨out, hout⟩ := Option.isSome_iff_exists.mp
      ((MeshClient.offered_isSome_iff m k pub).mpr hsub)
    obtain ⟨frame, hframe⟩ := (offered_frame_iff hparsed hfits hout).mpr htopic
    refine ⟨frame, (h.send frame false).mpr ⟨?_, ?_⟩⟩
    · exact (hfail.resolve_left (not_not.mpr htopic)).symm
    · rw [hout, Option.bind_some, hframe]

theorem ServedWith.offers (h : ServedWith menv m log k pub) :
    (MeshSubscribed m pub.topic k → ∃ out, .offer k out ∈ log) ∧
      ∀ out, .offer k out ∈ log → out.topic = pub.topic ∧ out.payload = pub.payload := by
  constructor
  · intro hsub
    obtain ⟨out, hout⟩ := Option.isSome_iff_exists.mp
      ((MeshClient.offered_isSome_iff m k pub).mpr hsub)
    exact ⟨out, (h.offer out).mpr hout⟩
  · intro out hout
    obtain ⟨-, j, -, -, rfl⟩ := MeshClient.offered_eq_some ((h.offer out).mp hout)
    obtain ⟨qos, id, heq, -⟩ := (m k).deliver_eq pub j
    rw [heq]
    exact ⟨rfl, rfl⟩

end

/-! ## All clients -/

/-- `broker_mesh_ingress_publish_remote` does no harm exactly if its message is contained. -/
theorem publishRemote_spares_iff {t : TopicTable cfg κ} (hparsed : MeshParsed m)
    {incoming : Incoming} {ref : PubRef} (hfits : (ref.deref m).Fits)
    (hcall : handedOn m incoming = some ref)
    (hsender : ∀ k, ref.Lost menv m k → incoming.sender ≠ some k) :
    SparesOthers m incoming (publishRemote menv t ref m).2 ↔ Contained menv m incoming ref := by
  have hempty : (default : MqttPublish).Fits := by unfold MqttPublish.Fits; decide
  have hnever : ¬ PublishTopic (default : MqttPublish).topic := by decide
  have hserved := fun k ↦ publishRemote_served menv t ref m k
  have hlost : ∀ k, ref.Cleared menv m k ↔ ref.Lost menv m k := fun k ↦
    PubRef.cleared_iff_lost hparsed hfits
  constructor
  · intro h k hk
    obtain ⟨hall, htrue⟩ := h.offered ref hcall k
    by_cases hl : ref.Lost menv m k
    · have hs := (hserved k).1 ((hlost k).mpr hl)
      have hnone : ¬ MeshSubscribed m [] k := fun hsub ↦
        hnever ((hs.closed_iff hparsed hempty).mp (h.closed k hk) hsub)
      have hnot : ¬ MeshSubscribed m (ref.deref m).topic k := by
        intro hsub
        obtain ⟨out, hout⟩ := hall hsub
        have htopic : (ref.deref m).topic = [] :=
          (htrue out hout).1.symm.trans (hs.offers.2 out hout).1
        exact hnone (htopic ▸ hsub)
      exact ⟨fun hsub ↦ absurd hsub hnot, fun _ ↦ ⟨hnot, hnone⟩⟩
    · have hs := (hserved k).2 (mt (hlost k).mp hl)
      exact ⟨(hs.closed_iff hparsed hfits).mp (h.closed k hk), fun hl' ↦ absurd hl' hl⟩
  · intro h
    refine ⟨fun k hk ↦ ?_, fun ref' hcall' k ↦ ?_⟩
    · by_cases hl : ref.Lost menv m k
      · have hs := (hserved k).1 ((hlost k).mpr hl)
        exact (hs.closed_iff hparsed hempty).mpr fun hsub ↦ absurd hsub ((h k hk).2 hl).2
      · have hs := (hserved k).2 (mt (hlost k).mp hl)
        exact (hs.closed_iff hparsed hfits).mpr (h k hk).1
    · obtain rfl := Option.some.inj (hcall.symm.trans hcall')
      by_cases hl : ref.Lost menv m k
      · have hs := (hserved k).1 ((hlost k).mpr hl)
        obtain ⟨hnot, hnone⟩ := (h k (hsender k hl)).2 hl
        refine ⟨fun hsub ↦ absurd hsub hnot, fun out hout ↦ ?_⟩
        refine absurd ?_ hnone
        exact (MeshClient.offered_isSome_iff m k default).mp
          (Option.isSome_iff_exists.mpr ⟨out, (hs.offer out).mp hout⟩)
      · exact ((hserved k).2 (mt (hlost k).mp hl)).offers

theorem ingressCall_sender {i : MeshSlot} {pkt : MqttPacket} {ref : PubRef}
    (h : ingressCall m i pkt = some ref) {k : MeshSlot} (hl : ref.Lost menv m k) : i ≠ k := by
  unfold ingressCall at h
  split_ifs at h
  · split at h
    · split_ifs at h
      cases h
      exact hl.elim
    · cases h
  · split at h
    · split_ifs at h
      cases h
      exact hl.1.ne
    · cases h

/-- Only offers, and what is about other clients than the sender, count. -/
theorem SparesOthers.congr {incoming : Incoming} {log log' : List MeshOutput}
    (hoffer : ∀ k out, .offer k out ∈ log ↔ .offer k out ∈ log')
    (hclosed : ∀ k, incoming.sender ≠ some k → (.closed k ∈ log ↔ .closed k ∈ log'))
    (hsend : ∀ k frame ok, incoming.sender ≠ some k →
      (.send k frame ok ∈ log ↔ .send k frame ok ∈ log')) :
    SparesOthers m incoming log ↔ SparesOthers m incoming log' := by
  have hiff : ∀ k, incoming.sender ≠ some k →
      ((.closed k ∈ log → ∃ frame, .send k frame false ∈ log) ↔
        (.closed k ∈ log' → ∃ frame, .send k frame false ∈ log')) := fun k hk ↦
    imp_congr (hclosed k hk) (exists_congr fun frame ↦ hsend k frame false hk)
  constructor
  · rintro ⟨h, ho⟩
    refine ⟨fun k hk ↦ (hiff k hk).mp (h k hk), ?_⟩
    simpa only [hoffer] using ho
  · rintro ⟨h, ho⟩
    refine ⟨fun k hk ↦ (hiff k hk).mpr (h k hk), ?_⟩
    simpa only [hoffer] using ho

theorem sparesOthers_of_none {incoming : Incoming} {log : List MeshOutput}
    (hcall : handedOn m incoming = none)
    (hclosed : ∀ k, incoming.sender ≠ some k → .closed k ∉ log) : SparesOthers m incoming log where
  closed k hk h := absurd h (hclosed k hk)
  offered ref h := by
    rw [hcall] at h
    cases h

/-- No packet of a mesh-ingress client and no frame of a peer does harm to a mesh-ingress client
that has not sent it, if and only if its message is contained. -/
theorem others_spared_iff [DecidableEq κ] [Inhabited κ] {t : TopicTable cfg κ}
    (h : Listening cfg κ t m) (incoming : Incoming)
    (huse : ∀ i, incoming.sender = some i → (m i).inUse = true) :
    SparesOthers m incoming (meshLog menv t m incoming) ↔
      ∀ ref, handedOn m incoming = some ref → Contained menv m incoming ref := by
  have hnothing : ∀ {log}, handedOn m incoming = none →
      (∀ k, incoming.sender ≠ some k → .closed k ∉ log) → (SparesOthers m incoming log ↔
        ∀ ref, handedOn m incoming = some ref → Contained menv m incoming ref) := by
    intro log hcall hclosed
    refine iff_of_true (sparesOthers_of_none hcall hclosed) fun ref href ↦ ?_
    rw [hcall] at href
    cases href
  have hsomething : ∀ {log ref}, handedOn m incoming = some ref →
      (SparesOthers m incoming log ↔ Contained menv m incoming ref) → (SparesOthers m incoming log ↔
        ∀ ref, handedOn m incoming = some ref → Contained menv m incoming ref) := by
    intro log ref hcall hiff
    rw [hiff, hcall]
    simp
  cases incoming with
  | client pkt => exact hnothing rfl fun _ _ ↦ List.not_mem_nil
  | peer buf =>
      simp only [meshLog]
      cases hparse : parsePublishFrame buf with
      | none => exact hnothing (by simp [handedOn, hparse]) fun _ _ ↦ List.not_mem_nil
      | some msg =>
          have hcall : handedOn m (.peer buf) = some (.value msg.toPublish) := by
            simp [handedOn, hparse]
          have hfits : (PubRef.deref m (.value msg.toPublish)).Fits := toPublish_fits hparse
          exact hsomething hcall
            (publishRemote_spares_iff h.parsed hfits hcall fun _ hl ↦ hl.elim)
  | ingress i pkt =>
      obtain ⟨answers, hlog, hanswers⟩ := meshIngressHandleClient_log menv t (huse i rfl) pkt
      have hclosed : ∀ k, Incoming.sender (.ingress i pkt) ≠ some k → .closed k ∉ answers :=
        fun k hk hmem ↦ hk (congrArg some (hanswers _ hmem).symm)
      simp only [meshLog, hlog]
      cases hcall : ingressCall m i pkt with
      | none => exact hnothing hcall hclosed
      | some ref =>
          have hfits := ingressCall_fits h.parsed hcall
          have hmem : ∀ o : MeshOutput, (∀ pub, o ≠ .propagate pub) → o ∉ answers →
              (o ∈ (some ref).elim [] (fun ref ↦ (meshPublishFromIngress menv t ref m).2) ++ answers
                ↔ o ∈ (publishRemote menv t ref m).2) := by
            intro o hpropagate ho
            simp only [Option.elim_some, meshPublishFromIngress, List.mem_append, ho, or_false]
            split_ifs <;> simp [hpropagate]
          refine hsomething hcall (Iff.trans (SparesOthers.congr (fun k out ↦ ?_) (fun k hk ↦ ?_)
            fun k frame ok hk ↦ ?_) (publishRemote_spares_iff (t := t) h.parsed hfits hcall
              fun k hl hk ↦ ingressCall_sender hcall hl (Option.some.inj hk)))
          · exact hmem _ nofun fun ho ↦ hanswers _ ho
          · exact hmem _ nofun (hclosed k hk)
          · exact hmem _ nofun fun ho ↦ hk (congrArg some (hanswers _ ho).symm)

/-! ## Two clients -/

namespace IsolationSample

def sends : MeshEnv := ⟨0, fun _ ↦ true⟩

def first : MeshSlot := ⟨0, MESH_INGRESS_MAX_CLIENTS_pos⟩
def second : MeshSlot := ⟨1, by decide⟩

/-- Nothing can be sent to the first client. -/
def firstFails : MeshEnv := ⟨0, fun k ↦ decide (k ≠ first)⟩

def table : TopicTable Config.posix ℕ := topicInit Config.posix ℕ

def run (m : MeshClients) (i : MeshSlot) (pkt : MqttPacket) : MeshClients :=
  (meshIngressHandleClient sends table m i (some pkt)).1

def accepted : MeshClients :=
  meshIngressAccept (meshIngressAccept (fun _ ↦ meshZeroed 0 false) 4) 5

theorem accepted_listening : Listening Config.posix ℕ table accepted :=
  (Listening.start.accept 4).accept 5

/-- SUBSCRIBE to a filter of one byte. -/
def subscribeTo (c : UInt8) : MqttPacket := ⟨0x82, 6, [0, 1, 0, 1, c, 0]⟩

/-- The second client has subscribed to `#`. -/
def all : MeshClients := run accepted second (subscribeTo 0x23)

theorem all_listening : Listening Config.posix ℕ table all :=
  accepted_listening.packet sends second (some (subscribeTo 0x23))

/-- PUBLISH of QoS 0 on `a`, and on the empty topic. -/
def ordinary : MqttPacket := ⟨0x30, 4, writeStr [0x61] ++ [0x78]⟩
def nowhere : MqttPacket := ⟨0x30, 3, writeStr [] ++ [0x78]⟩

/-- Both have subscribed to `a`, and the first has sent a PUBLISH of QoS 2 on it. -/
def held : MeshClients :=
  run (run (run accepted first (subscribeTo 0x61)) second (subscribeTo 0x61)) first
    ⟨0x34, 6, writeStr [0x61] ++ [0, 7, 0x78]⟩

theorem held_listening : Listening Config.posix ℕ table held :=
  ((accepted_listening.packet sends first (some (subscribeTo 0x61))).packet sends second
    (some (subscribeTo 0x61))).packet sends first (some ⟨0x34, 6, writeStr [0x61] ++ [0, 7, 0x78]⟩)

def pubrel : MqttPacket := ⟨0x62, 2, [0, 7]⟩

/-- Where the first client keeps it. -/
def kept : PubRef := .qos2In first ⟨0, by decide⟩

/-- Nothing in the log failed to be sent. -/
def sent : MeshOutput → Bool
  | .send _ _ ok => ok
  | _ => true

/-- It is no message for the second client. -/
def spared : MeshOutput → Bool
  | .offer k _ => k ≠ second
  | _ => true

end IsolationSample

open IsolationSample

/-- A message on an ordinary topic harms nobody. -/
theorem ordinary_spares_others :
    SparesOthers all (.ingress first ordinary)
      (meshLog sends table all (.ingress first ordinary)) := by
  have huse : (all first).inUse = true := by decide +kernel
  have hcall : handedOn all (.ingress first ordinary) =
      some (.value ⟨[0x61], [0x78], 0, 0, 0, 0⟩) := by
    have htype : ordinary.type = PacketType.publish := by decide
    have hparse : packetParsePublish ordinary = some ⟨[0x61], [0x78], 0, 0, 0, 0⟩ := by
      decide +kernel
    rw [handedOn, ingressCall, if_pos htype, hparse]
    rfl
  refine (others_spared_iff all_listening _ ?_).mpr fun ref href ↦ ?_
  · rintro i hi
    cases hi
    exact huse
  · obtain rfl := Option.some.inj (hcall.symm.trans href)
    exact fun k _ ↦ ⟨fun _ ↦ by decide, fun hl ↦ hl.elim⟩

/-- A message on the empty topic of the first client closes the second. The PUBREL of the first
client, which cannot be sent its own message, keeps it from the second. -/
theorem others_not_spared : Listening Config.posix ℕ table all ∧
    ¬ SparesOthers all (.ingress first nowhere) (meshLog sends table all (.ingress first nowhere)) ∧
    Listening Config.posix ℕ table held ∧
    ¬ SparesOthers held (.ingress first pubrel)
      (meshLog firstFails table held (.ingress first pubrel)) := by
  refine ⟨all_listening, fun h ↦ ?_, held_listening, fun h ↦ ?_⟩
  · have hclosed : .closed second ∈ meshLog sends table all (.ingress first nowhere) := by
      decide +kernel
    have hsends : ∀ o ∈ meshLog sends table all (.ingress first nowhere), ∀ frame,
        o ≠ .send second frame false := by
      have hkinds : (meshLog sends table all (.ingress first nowhere)).all sent = true := by
        decide +kernel
      rintro o ho frame rfl
      have hok := List.all_eq_true.mp hkinds _ ho
      cases hok
    obtain ⟨frame, hframe⟩ := h.closed second (by decide) hclosed
    exact hsends _ hframe frame rfl
  · have hcall : handedOn held (.ingress first pubrel) = some kept := by
      have htype : pubrel.type = PacketType.pubrel := by decide
      have hpublish : ¬ pubrel.type = PacketType.publish := by decide
      have hfind : (held first).qos2Find pubrel.packetId = some ⟨0, by decide⟩ := by
        decide +kernel
      have hnew : (!((held first).qos2In ⟨0, by decide⟩).published) = true := by decide +kernel
      rw [handedOn, ingressCall, if_neg hpublish, if_pos htype, hfind]
      exact if_pos hnew
    have hsub : MeshSubscribed held (kept.deref held).topic second := by decide +kernel
    have hoffers : (meshLog firstFails table held (.ingress first pubrel)).all spared = true := by
      decide +kernel
    obtain ⟨out, hout⟩ := (h.offered kept hcall second).1 hsub
    have hother := List.all_eq_true.mp hoffers _ hout
    simp [spared] at hother

end MqttBroker
