import MqttBroker.Layout
import MqttBroker.Mesh.Ingress

/-!
# SUBSCRIBE and UNSUBSCRIBE of a mesh-ingress client

`mesh_ingress_handle_client` has room for one filter, answers whatever the
parser has said, and does not ask `topic_filter_valid`.  What it answers is
compared with the table of the connection.
-/

namespace MqttBroker

variable {cfg : Config} {κ : Type}

namespace MeshClient

variable (c : MeshClient)

/-- A subscription in use has this filter. -/
def Holds (f : CStr) : Prop := ∃ j, c.subInUse j = true ∧ c.subs j = f

/-- A subscription in use has this filter and this QoS. -/
def HoldsQos (f : CStr) (q : UInt8) : Prop :=
  ∃ j, c.subInUse j = true ∧ c.subs j = f ∧ c.qos j = q

/-- The filter is empty, or it is new and every subscription is in use. -/
def NoRoom (f : CStr) : Prop := f = [] ∨ (∀ j, c.subInUse j = true) ∧ ¬ c.Holds f

instance (f : CStr) : Decidable (c.Holds f) := inferInstanceAs (Decidable (∃ _, _))
instance (f : CStr) (q : UInt8) : Decidable (c.HoldsQos f q) :=
  inferInstanceAs (Decidable (∃ _, _))
instance (f : CStr) : Decidable (c.NoRoom f) := inferInstanceAs (Decidable (_ ∨ _))

end MeshClient

/-- What a SUBSCRIBE or an UNSUBSCRIBE asks for. -/
inductive FilterRequest where
  | subscribe (topics : List (CStr × UInt8))
  | unsubscribe (topics : List CStr)

/-- The codes of a SUBACK fit the table that the connection then has. -/
structure SubackRight (c : MeshClient) (topics : List (CStr × UInt8)) (codes : Bytes) : Prop where
  length : codes.length = topics.length
  code : ∀ (k : ℕ) f q, topics[k]? = some (f, q) → ∃ code, codes[k]? = some code ∧
    (code ≠ 0x80 ↔ c.HoldsQos f q) ∧ (code ≠ 0x80 → code = q) ∧
    (¬ topicFilterValid f = true → code = 0x80)

namespace FilterRequest

/-- The packet carries the request in well-formed filters. -/
def CarriedBy (req : FilterRequest) (id : UInt16) (pkt : MqttPacket) : Prop :=
  match req with
  | subscribe topics => pkt.type = PacketType.subscribe ∧ pkt.buf = subscribeLayout id topics ∧
      ∀ e ∈ topics, FitsIn MQTT_TOPIC_MAX e.1 ∧ e.2 ≤ 2
  | unsubscribe topics => pkt.type = PacketType.unsubscribe ∧
      pkt.buf = unsubscribeLayout id topics ∧ ∀ s ∈ topics, FitsIn MQTT_TOPIC_MAX s

/-- The acknowledgement, if one is sent, agrees with the table after it. -/
def Answered (req : FilterRequest) (id : UInt16) (i : MeshSlot) (out : MeshResult) : Prop :=
  match req with
  | subscribe topics => ∀ frame codes, .reply i frame ∈ out.2 →
      packetBuildSuback id codes (MQTT_MAX_PACKET_SIZE + 8) = some frame →
        SubackRight (out.1 i) topics codes
  | unsubscribe topics => ∀ frame, .reply i frame ∈ out.2 →
      packetBuildUnsuback id (MQTT_MAX_PACKET_SIZE + 8) = some frame →
        ∀ f ∈ topics, ¬ (out.1 i).Holds f

/-- One valid filter to subscribe to, or one that is refused; or one to give up, or only such
as the connection does not have. -/
def FitsHandler (req : FilterRequest) (c : MeshClient) : Prop :=
  match req with
  | subscribe topics => ∃ f q, topics = [(f, q)] ∧
      (topicFilterValid f = true ∨ c.NoRoom f ∧ ¬ c.HoldsQos f q)
  | unsubscribe topics => (∃ f, topics = [f] ∧ f ≠ []) ∨ ∀ f ∈ topics, ¬ c.Holds f

end FilterRequest

/-! ## The table of a connection -/

variable {c : MeshClient} {f : CStr} {q : UInt8}

theorem meshClientSubscribe_noRoom (h : c.NoRoom f) :
    meshClientSubscribe cfg c f q = (c, [], -1) := by
  unfold meshClientSubscribe
  rcases h with rfl | ⟨hfull, hnew⟩
  · rw [if_pos rfl]
  · by_cases hf : f = []
    · rw [if_pos hf]
    · have hfind : ((List.finRange MESH_INGRESS_SUBS_PER_CLIENT).find? fun j ↦
          c.subInUse j && c.subs j = f) = none := by
        rw [List.find?_eq_none]
        intro j _ hj
        simp only [Bool.and_eq_true, decide_eq_true_eq] at hj
        exact hnew ⟨j, hj⟩
      have hfree : ((List.finRange MESH_INGRESS_SUBS_PER_CLIENT).find? fun j ↦
          !c.subInUse j) = none := by
        rw [List.find?_eq_none]
        intro j _
        simp [hfull j]
      rw [if_neg hf, hfind]
      dsimp only
      rw [hfree]

theorem meshClientSubscribe_room (cfg : Config) (q : UInt8) (h : ¬ c.NoRoom f)
    (hlen : f.length < MQTT_TOPIC_MAX) :
    (meshClientSubscribe cfg c f q).2.2 = 0 ∧ (meshClientSubscribe cfg c f q).1.HoldsQos f q := by
  obtain ⟨hne, hroom⟩ := not_or.mp h
  unfold meshClientSubscribe
  rw [if_neg hne]
  split
  · next j hj =>
      have hholds := List.find?_some hj
      simp only [Bool.and_eq_true, decide_eq_true_eq] at hholds
      exact ⟨rfl, j, hholds.1, hholds.2, Function.update_self ..⟩
  · next hnone =>
      split
      · next hfull =>
          refine absurd ⟨fun j ↦ ?_, ?_⟩ hroom
          · simpa using List.find?_eq_none.mp hfull j (List.mem_finRange j)
          · rintro ⟨j, hj⟩
            have hnot := List.find?_eq_none.mp hnone j (List.mem_finRange j)
            simp [hj] at hnot
      · next j hj =>
          refine ⟨rfl, j, Function.update_self .., ?_, Function.update_self ..⟩
          dsimp only
          rw [Function.update_self]
          exact List.take_of_length_le (by omega)

/-- A valid filter that is not stored was not there before. -/
theorem not_holdsQos_of_noRoom (h : c.NoRoom f) (hvalid : topicFilterValid f = true) :
    ¬ c.HoldsQos f q := by
  rintro ⟨j, hj, hf, -⟩
  rcases h with rfl | ⟨-, hnew⟩
  · exact absurd hvalid (by decide)
  · exact hnew ⟨j, hj, hf⟩

/-- Afterwards the table has what it had without this filter. -/
theorem meshClientUnsubscribe_holds (t : TopicTable cfg κ) {m : MeshClients} {i : MeshSlot}
    (hf : f ≠ []) {g : CStr} :
    ((meshClientUnsubscribe t m i f).1 i).Holds g ↔ (m i).Holds g ∧ g ≠ f := by
  rw [meshClientUnsubscribe, if_neg hf]
  dsimp only
  rw [Function.update_self]
  constructor
  · rintro ⟨j, hj, hg⟩
    dsimp only at hj hg
    split_ifs at hj with hheld
    refine ⟨⟨j, hj, hg⟩, ?_⟩
    rintro rfl
    simp [hj, hg] at hheld
  · rintro ⟨⟨j, hj, hg⟩, hne⟩
    refine ⟨j, ?_, hg⟩
    dsimp only
    rw [if_neg, hj]
    simp [hg, hne]

/-! ## The frames -/

section Frames

variable {id : UInt16} {codes codes' : Bytes} {frame : Bytes} {outCap : ℕ}

theorem packetBuildSuback_frame (h : packetBuildSuback id codes outCap = some frame) :
    frame = PacketType.suback :: UInt8.ofNat (2 + codes.length) :: (writeU16 id ++ codes) := by
  unfold packetBuildSuback at h
  split_ifs at h
  exact (Option.some.inj h).symm

theorem packetBuildSuback_inj (h : packetBuildSuback id codes outCap = some frame)
    (h' : packetBuildSuback id codes' outCap = some frame) : codes = codes' := by
  have heq := (packetBuildSuback_frame h).symm.trans (packetBuildSuback_frame h')
  simp only [List.cons.injEq, true_and] at heq
  exact List.append_cancel_left heq.2

theorem packetBuildSuback_one (hid : id ≠ 0) {code : UInt8} (hcode : code ≤ 2 ∨ code = 0x80) :
    ∃ frame, packetBuildSuback id [code] (MQTT_MAX_PACKET_SIZE + 8) = some frame := by
  have hroom : ¬ MQTT_MAX_PACKET_SIZE + 8 < 4 + [code].length := by
    rw [List.length_singleton]
    decide
  have hlist : ([code].any fun r ↦ r ≠ 0 ∧ r ≠ 1 ∧ r ≠ 2 ∧ r ≠ 0x80) = false := by
    rcases hcode with hcode | rfl
    · rcases u8_le_two hcode with rfl | rfl | rfl <;> rfl
    · rfl
  unfold packetBuildSuback
  rw [if_neg (by simp [hid]), if_neg (by rw [hlist]; simp)]
  exact ⟨_, rfl⟩

/-- The frame is what is sent, after notifications. -/
theorem mem_replyTo {i : MeshSlot} {g : Bytes} {m : MeshClients} {notes : List Notify} :
    .reply i frame ∈ (MeshResult.replyTo i (some g) (m, notes.map .notify)).2 ↔ frame = g := by
  simp [MeshResult.replyTo]

/-- One code is sent for the request. -/
theorem answered_subscribe_iff (notes : List Notify) (hid : id ≠ 0) {code : UInt8}
    (hcode : code ≤ 2 ∨ code = 0x80) {topics : List (CStr × UInt8)} {i : MeshSlot}
    {m : MeshClients} :
    (FilterRequest.subscribe topics).Answered id i
        (MeshResult.replyTo i (packetBuildSuback id [code] (MQTT_MAX_PACKET_SIZE + 8))
          (m, notes.map .notify)) ↔ SubackRight (m i) topics [code] := by
  obtain ⟨g, hg⟩ := packetBuildSuback_one hid hcode
  rw [hg]
  constructor
  · intro h
    exact h g [code] (mem_replyTo.mpr rfl) hg
  · intro h frame codes hmem hbuild
    obtain rfl := mem_replyTo.mp hmem
    rw [packetBuildSuback_inj hbuild hg]
    exact h

theorem answered_unsubscribe_iff (notes : List Notify) (hid : id ≠ 0) {topics : List CStr}
    {i : MeshSlot} {m : MeshClients} :
    (FilterRequest.unsubscribe topics).Answered id i
        (MeshResult.replyTo i (packetBuildUnsuback id (MQTT_MAX_PACKET_SIZE + 8))
          (m, notes.map .notify)) ↔ ∀ f ∈ topics, ¬ (m i).Holds f := by
  have hbuild : packetBuildUnsuback id (MQTT_MAX_PACKET_SIZE + 8) =
      some (PacketType.unsuback :: 2 :: writeU16 id) := by
    have hbad : ¬ (id = 0 ∨ MQTT_MAX_PACKET_SIZE + 8 < 4) := not_or.mpr ⟨hid, by decide⟩
    rw [packetBuildUnsuback, packetBuildAck, if_neg hbad]
  rw [hbuild]
  constructor
  · intro h
    exact h _ (mem_replyTo.mpr rfl) hbuild
  · intro h frame _ _
    exact h

end Frames

theorem subackRight_one {code : UInt8} : SubackRight c [(f, q)] [code] ↔
    (code ≠ 0x80 ↔ c.HoldsQos f q) ∧ (code ≠ 0x80 → code = q) ∧
      (¬ topicFilterValid f = true → code = 0x80) := by
  constructor
  · intro h
    obtain ⟨code', hcode', hright⟩ := h.code 0 f q rfl
    obtain rfl := Option.some.inj hcode'
    exact hright
  · intro h
    refine ⟨rfl, fun k f' q' hk ↦ ?_⟩
    cases k with
    | zero =>
        cases hk
        exact ⟨code, rfl, h⟩
    | succ k => cases hk

/-! ## What the handler parses -/

section Parse

variable {id : UInt16} {pkt : MqttPacket}

theorem packetId_of_buf {rest : Bytes} (h : pkt.buf = writeU16 id ++ rest) : pkt.packetId = id := by
  rw [MqttPacket.packetId, h, readU16_writeU16]

/-- A parser of a packet id and items, with room for one item. -/
theorem parse_one {α : Type} {parse : ℕ → Option (UInt16 × List α)}
    {layout : UInt16 → List α → Bytes} {valid : α → Prop}
    (hiff : ∀ {n id l}, parse n = some (id, l) ↔ pkt.buf = layout id l ∧ id ≠ 0 ∧
      (∀ a ∈ l, valid a) ∧ 1 ≤ l.length ∧ l.length ≤ n)
    (hnil : ∀ id' a, layout id [] ≠ layout id' [a]) {items : List α} (hid : id ≠ 0)
    (hbuf : pkt.buf = layout id items) (hvalid : ∀ a ∈ items, valid a) :
    parse 1 = if items.length = 1 then some (id, items) else none := by
  split_ifs with hone
  · exact hiff.mpr ⟨hbuf, hid, hvalid, hone.ge, hone.le⟩
  · by_contra hsome
    obtain ⟨⟨id', items'⟩, hparse⟩ := Option.ne_none_iff_exists'.mp hsome
    obtain ⟨hbuf', hid', hvalid', hpos, hmax⟩ := hiff.mp hparse
    rcases Nat.eq_zero_or_pos items.length with hzero | hmany
    · obtain ⟨a, rfl⟩ := List.length_eq_one_iff.mp (le_antisymm hmax hpos)
      rw [List.length_eq_zero_iff.mp hzero] at hbuf
      exact hnil id' a (hbuf.symm.trans hbuf')
    · have hall := hiff.mpr ⟨hbuf, hid, hvalid, hmany, le_rfl⟩
      have hone' := hiff.mpr ⟨hbuf', hid', hvalid', hpos, hmax.trans hmany⟩
      rw [hall, Option.some.injEq, Prod.mk.injEq] at hone'
      rw [hone'.2] at hone
      omega

theorem parseSubscribe_one {topics : List (CStr × UInt8)} (hid : id ≠ 0)
    (hbuf : pkt.buf = subscribeLayout id topics)
    (hfits : ∀ e ∈ topics, FitsIn MQTT_TOPIC_MAX e.1 ∧ e.2 ≤ 2) :
    packetParseSubscribe pkt 1 = if topics.length = 1 then some (id, topics) else none := by
  refine parse_one packetParseSubscribe_iff (fun id' e heq ↦ ?_) hid hbuf hfits
  have hlen := congrArg List.length heq
  simp [subscribeLayout, writeRequest, writeU16] at hlen

theorem parseUnsubscribe_one {topics : List CStr} (hid : id ≠ 0)
    (hbuf : pkt.buf = unsubscribeLayout id topics) (hfits : ∀ s ∈ topics, FitsIn MQTT_TOPIC_MAX s) :
    packetParseUnsubscribe pkt 1 = if topics.length = 1 then some (id, topics) else none := by
  refine parse_one packetParseUnsubscribe_iff (fun id' f heq ↦ ?_) hid hbuf hfits
  have hlen := congrArg List.length heq
  simp [unsubscribeLayout, writeStr, writeU16] at hlen

end Parse

/-! ## The answers -/

section Answers

variable {id : UInt16} {pkt : MqttPacket} {m : MeshClients} {i : MeshSlot}

theorem and_three {q : UInt8} (hq : q ≤ 2) : q &&& 0x03 = q := by
  rcases u8_le_two hq with rfl | rfl | rfl <;> rfl

theorem ne_refused {q : UInt8} (hq : q ≤ 2) : q ≠ 0x80 := by
  rcases u8_le_two hq with rfl | rfl | rfl <;> decide

theorem subscribe_answered_iff (hid : id ≠ 0) {topics : List (CStr × UInt8)}
    (hbuf : pkt.buf = subscribeLayout id topics)
    (hfits : ∀ e ∈ topics, FitsIn MQTT_TOPIC_MAX e.1 ∧ e.2 ≤ 2) :
    (FilterRequest.subscribe topics).Answered id i (meshHandleSubscribe m i cfg pkt) ↔
      (FilterRequest.subscribe topics).FitsHandler (m i) := by
  rw [meshHandleSubscribe, parseSubscribe_one hid hbuf hfits]
  by_cases hone : topics.length = 1
  · obtain ⟨⟨f, q⟩, rfl⟩ := List.length_eq_one_iff.mp hone
    obtain ⟨hfit, hq⟩ := hfits _ List.mem_cons_self
    have hfits_iff : (FilterRequest.subscribe [(f, q)]).FitsHandler (m i) ↔
        topicFilterValid f = true ∨ (m i).NoRoom f ∧ ¬ (m i).HoldsQos f q := by
      constructor
      · rintro ⟨f', q', heq, h⟩
        cases heq
        exact h
      · intro h
        exact ⟨f, q, rfl, h⟩
    rw [if_pos hone, hfits_iff]
    dsimp only
    have hcode : ∀ rc : ℤ, (if rc = 0 then q &&& 0x03 else 0x80) ≤ 2 ∨
        (if rc = 0 then q &&& 0x03 else 0x80) = (0x80 : UInt8) := by
      intro rc
      rw [and_three hq]
      split_ifs
      · exact .inl hq
      · exact .inr rfl
    rw [answered_subscribe_iff _ hid (hcode _), Function.update_self, subackRight_one]
    by_cases hroom : (m i).NoRoom f
    · -- the code is 0x80 and the table is as before
      rw [meshClientSubscribe_noRoom hroom]
      dsimp only
      rw [if_neg (by decide)]
      constructor
      · intro h
        exact .inr ⟨hroom, fun hholds ↦ h.1.mpr hholds rfl⟩
      · intro h
        have hnot : ¬ (m i).HoldsQos f q := by
          rcases h with hvalid | ⟨-, hnot⟩
          · exact not_holdsQos_of_noRoom hroom hvalid
          · exact hnot
        exact ⟨⟨fun hne ↦ absurd rfl hne, fun hholds ↦ absurd hholds hnot⟩,
          fun hne ↦ absurd rfl hne, fun _ ↦ rfl⟩
    · obtain ⟨hrc, hholds⟩ := meshClientSubscribe_room cfg q hroom hfit.1
      rw [if_pos hrc, and_three hq]
      constructor
      · intro h
        left
        by_contra hvalid
        exact ne_refused hq (h.2.2 hvalid)
      · rintro (hvalid | ⟨hno, -⟩)
        · exact ⟨⟨fun _ ↦ hholds, fun _ ↦ ne_refused hq⟩, fun _ ↦ rfl,
            fun hinvalid ↦ absurd hvalid hinvalid⟩
        · exact absurd hno hroom
  · rw [if_neg hone, packetId_of_buf hbuf]
    dsimp only
    refine iff_of_false ?_ ?_
    · intro h
      have hlen := ((answered_subscribe_iff [] hid (.inr rfl)).mp h).length
      rw [List.length_singleton] at hlen
      exact hone hlen.symm
    · rintro ⟨f, q, rfl, -⟩
      exact hone rfl

theorem unsubscribe_answered_iff (t : TopicTable cfg κ) (hid : id ≠ 0) {topics : List CStr}
    (hbuf : pkt.buf = unsubscribeLayout id topics) (hfits : ∀ s ∈ topics, FitsIn MQTT_TOPIC_MAX s) :
    (FilterRequest.unsubscribe topics).Answered id i (meshHandleUnsubscribe t m i pkt) ↔
      (FilterRequest.unsubscribe topics).FitsHandler (m i) := by
  rw [meshHandleUnsubscribe, packetId_of_buf hbuf, parseUnsubscribe_one hid hbuf hfits]
  by_cases hone : topics.length = 1
  · obtain ⟨f, rfl⟩ := List.length_eq_one_iff.mp hone
    rw [if_pos hone]
    dsimp only
    rw [answered_unsubscribe_iff _ hid]
    by_cases hf : f = []
    · rw [meshClientUnsubscribe, if_pos hf]
      constructor
      · intro h
        exact .inr h
      · rintro (⟨g, heq, hg⟩ | h)
        · cases heq
          exact absurd hf hg
        · exact h
    · refine iff_of_true ?_ (.inl ⟨f, rfl, hf⟩)
      intro g hg
      rw [meshClientUnsubscribe_holds t hf, List.mem_singleton.mp hg]
      exact fun h ↦ h.2 rfl
  · rw [if_neg hone]
    dsimp only
    refine (answered_unsubscribe_iff [] hid).trans ?_
    constructor
    · intro h
      exact .inr h
    · rintro (⟨f, rfl, -⟩ | h)
      · exact absurd rfl hone
      · exact h

/-- The acknowledgement agrees with the table exactly for the requests that
fit the handler. -/
theorem mesh_answered_iff (env : MeshEnv) (t : TopicTable cfg κ) (hin : (m i).inUse = true)
    (hid : id ≠ 0) {req : FilterRequest} (hcarried : req.CarriedBy id pkt) :
    req.Answered id i (meshIngressHandleClient env t m i (some pkt)) ↔
      req.FitsHandler (m i) := by
  have hopen : ¬ (!(m i).inUse) = true := by simp [hin]
  rw [meshIngressHandleClient, if_neg hopen]
  cases req with
  | subscribe topics =>
      obtain ⟨htype, hbuf, hfits⟩ := hcarried
      rw [htype, if_neg (by decide), if_pos rfl]
      exact subscribe_answered_iff hid hbuf hfits
  | unsubscribe topics =>
      obtain ⟨htype, hbuf, hfits⟩ := hcarried
      rw [htype, if_neg (by decide), if_neg (by decide), if_pos rfl]
      exact unsubscribe_answered_iff t hid hbuf hfits

end Answers

/-! ## Requests of one connection -/

namespace RequestSample

def i : MeshSlot := ⟨0, MESH_INGRESS_MAX_CLIENTS_pos⟩

/-- `lamp` -/
def lamp : CStr := [108, 97, 109, 112]

/-- `door` -/
def door : CStr := [100, 111, 111, 114]

/-- `a#`, whose wildcard is not a level of its own -/
def badHash : CStr := [97, 35]

def connected : MeshClients := meshIngressAccept (fun _ ↦ meshZeroed 0 false) 4

def packet (typeFlags : UInt8) (buf : Bytes) : MqttPacket := ⟨typeFlags, buf.length, buf⟩

/-- The only connection sends a request. -/
def sends (m : MeshClients) : FilterRequest → MeshResult
  | .subscribe topics => meshIngressHandleClient ⟨0, fun _ ↦ true⟩ (topicInit Config.posix ℕ) m i
      (some (packet 0x82 (subscribeLayout 7 topics)))
  | .unsubscribe topics => meshIngressHandleClient ⟨0, fun _ ↦ true⟩
      (topicInit Config.posix ℕ) m i (some (packet 0xa2 (unsubscribeLayout 7 topics)))

/-- It has asked for both topics, one by one. -/
def hasBoth : MeshClients :=
  (sends (sends connected (.subscribe [(lamp, 0)])).1 (.subscribe [(door, 0)])).1

theorem mesh_answered_iff_lamp :
    (FilterRequest.subscribe [(lamp, 1)]).Answered 7 i
        (sends connected (.subscribe [(lamp, 1)])) ↔
      (FilterRequest.subscribe [(lamp, 1)]).FitsHandler (connected i) :=
  mesh_answered_iff _ _ (by decide +kernel) (by decide) ⟨rfl, rfl, fun e he ↦ by
    rw [List.mem_singleton.mp he]
    exact ⟨⟨by decide, by decide⟩, by decide⟩⟩

/-- Two filters get one code, an invalid one is granted, and two that are given up both stay. -/
theorem requests_answered_wrongly :
    ¬ (FilterRequest.subscribe [(lamp, 0), (door, 0)]).Answered 7 i
        (sends connected (.subscribe [(lamp, 0), (door, 0)])) ∧
      ¬ (FilterRequest.subscribe [(badHash, 0)]).Answered 7 i
        (sends connected (.subscribe [(badHash, 0)])) ∧
      ¬ (FilterRequest.unsubscribe [lamp, door]).Answered 7 i
        (sends hasBoth (.unsubscribe [lamp, door])) := by
  refine ⟨fun h ↦ ?_, fun h ↦ ?_, fun h ↦ ?_⟩
  · have hright := h [0x90, 3, 0, 7, 0x80] [0x80] (by decide +kernel) (by decide)
    exact absurd hright.length (by decide)
  · have hright := h [0x90, 3, 0, 7, 0] [0] (by decide +kernel) (by decide)
    exact absurd ((subackRight_one.mp hright).2.2 (by decide)) (by decide)
  · have hgone := h [0xb0, 2, 0, 7] (by decide +kernel) (by decide) lamp List.mem_cons_self
    exact hgone (by decide +kernel)

end RequestSample

end MqttBroker
