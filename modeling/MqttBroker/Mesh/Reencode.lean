import MqttBroker.Mesh.Message
import MqttBroker.Layout

/-!
# Building a frame again

`build_publish_frame` and `parse_publish_frame` in both directions.  The topic
is a counted string of bytes in a frame and a C string in a message.
-/

namespace MqttBroker

/-- The `topic_len` bytes behind the header of a frame. -/
def frameTopic (buf : Bytes) : Bytes :=
  (buf.drop P2P_PUBLISH_WIRE_HDR).take (ofHostU16 (buf.getD 18 0) (buf.getD 19 0)).toNat

theorem hostU16_ofHostU16 (lo hi : UInt8) : hostU16 (ofHostU16 lo hi) = [lo, hi] := by
  obtain ⟨hhi, hlo⟩ := bytes_of_u16 hi lo
  rw [hostU16, ofHostU16, hhi, hlo]

theorem hostU16_ofNat_length {lo hi : UInt8} {bs : Bytes}
    (h : (ofHostU16 lo hi).toNat = bs.length) : hostU16 (UInt16.ofNat bs.length) = [lo, hi] := by
  rw [← h, UInt16.ofNat_toNat, hostU16_ofHostU16]

theorem ofFn_getD {buf : Bytes} {n : ℕ} (h : n ≤ buf.length) :
    (List.ofFn fun i : Fin n ↦ buf.getD i 0) = buf.take n := by
  apply List.ext_getElem
  · simpa using h
  · intro i hi _
    have hlt : i < n := by simpa using hi
    rw [List.getElem_ofFn, List.getElem_take, List.getD_eq_getElem _ _ (by omega)]

/-- A frame is accepted as the message whose topic is the string at the front of its topic
bytes. -/
theorem parsePublishFrame_spec {buf : Bytes} {msg : P2pPublishMsg}
    (h : parsePublishFrame buf = some msg) : ∃ raw : P2pPublishMsg, raw.Lengths ∧
      buf = raw.wire ∧ frameTopic buf = raw.topic ∧ msg = { raw with topic := cstr raw.topic } := by
  unfold parsePublishFrame at h
  split at h
  · next s₀ s₁ t₀ t₁ p₀ p₁ qos retain rest hdrop =>
      dsimp only at h
      split_ifs at h with hbad hlen
      simp only [not_or, not_lt, not_le, not_not] at hbad hlen
      obtain ⟨hpos, htopic, hpayload⟩ := hbad
      cases h
      have hlong : P2P_NODE_ID_LEN ≤ buf.length := by
        by_contra hshort
        rw [List.drop_eq_nil_of_le (by omega)] at hdrop
        cases hdrop
      have hat : ∀ i, buf[P2P_NODE_ID_LEN + i]? =
          (s₀ :: s₁ :: t₀ :: t₁ :: p₀ :: p₁ :: qos :: retain :: rest)[i]? := by
        intro i
        rw [← hdrop, List.getElem?_drop]
      have hrest : buf.drop P2P_PUBLISH_WIRE_HDR = rest := by
        rw [P2P_PUBLISH_WIRE_HDR, ← List.drop_drop, hdrop]
        rfl
      have ht₀ : buf.getD 18 0 = t₀ := by
        rw [List.getD_eq_getElem?_getD, show 18 = P2P_NODE_ID_LEN + 2 from rfl, hat 2]
        rfl
      have ht₁ : buf.getD 19 0 = t₁ := by
        rw [List.getD_eq_getElem?_getD, show 19 = P2P_NODE_ID_LEN + 3 from rfl, hat 3]
        rfl
      have hsome : 0 < (ofHostU16 t₀ t₁).toNat := Nat.pos_of_ne_zero hpos
      have htake : (rest.take (ofHostU16 t₀ t₁).toNat).length = (ofHostU16 t₀ t₁).toNat := by
        rw [List.length_take]
        omega
      have hskip : (rest.drop (ofHostU16 t₀ t₁).toNat).length = (ofHostU16 p₀ p₁).toNat := by
        rw [List.length_drop]
        omega
      refine ⟨⟨fun i ↦ buf.getD i 0, ofHostU16 s₀ s₁, rest.take (ofHostU16 t₀ t₁).toNat,
        rest.drop (ofHostU16 t₀ t₁).toNat, qos, retain⟩, ⟨?_, ?_, ?_⟩, ?_, ?_, rfl⟩
      · exact List.ne_nil_of_length_pos (hsome.trans_eq htake.symm)
      · exact htake.trans_lt htopic
      · exact hskip.trans_le hpayload
      · calc buf = buf.take P2P_NODE_ID_LEN ++ buf.drop P2P_NODE_ID_LEN :=
              (List.take_append_drop _ _).symm
          _ = _ := by
              rw [P2pPublishMsg.wire, ofFn_getD hlong, hdrop, hostU16_ofHostU16,
                hostU16_ofNat_length htake.symm, hostU16_ofNat_length hskip.symm]
              simp only [List.append_assoc, List.cons_append, List.nil_append,
                List.take_append_drop]
      · rw [frameTopic, ht₀, ht₁, hrest]
  · cases h

theorem length_cstr_lt {bs : Bytes} (h : 0 ∈ bs) : (cstr bs).length < bs.length := by
  have hle : (cstr bs).length ≤ bs.length := (List.takeWhile_prefix _).length_le
  refine lt_of_le_of_ne hle fun heq ↦ nul_not_mem_cstr bs ?_
  rw [cstr, (List.takeWhile_prefix _).eq_of_length heq]
  exact h

/-- The same bytes come out exactly when the string ends where the topic is counted to end. -/
theorem buildPublishFrame_parsed {buf : Bytes} {msg : P2pPublishMsg}
    (h : parsePublishFrame buf = some msg) :
    buildPublishFrame msg = some buf ↔ 0 ∉ frameTopic buf := by
  obtain ⟨raw, hraw, hbuf, htopic, hmsg⟩ := parsePublishFrame_spec h
  rw [htopic, P2pPublishMsg.buildPublishFrame_iff]
  constructor
  · rintro ⟨-, hwire⟩ hnul
    have hlen : raw.wire.length = msg.wire.length := by rw [← hbuf, ← hwire]
    rw [P2pPublishMsg.length_wire, P2pPublishMsg.length_wire, hmsg] at hlen
    have hlt := length_cstr_lt hnul
    dsimp only at hlen
    omega
  · intro hnul
    have heq : msg = raw := by rw [hmsg, cstr_eq_self hnul]
    rw [heq]
    exact ⟨hraw, hbuf⟩

/-- What is built from a message is parsed as that message; what is parsed from a frame is built
into that frame exactly when the topic bytes of the frame have no NUL among them. -/
theorem frame_reencodes_iff {msg : P2pPublishMsg} (hnul : 0 ∉ msg.topic) {buf : Bytes}
    {parsed : P2pPublishMsg} (hparse : parsePublishFrame buf = some parsed) :
    (∀ frame, buildPublishFrame msg = some frame → parsePublishFrame frame = some msg) ∧
      (buildPublishFrame parsed = some buf ↔ 0 ∉ frameTopic buf) := by
  refine ⟨fun frame hbuild ↦ ?_, buildPublishFrame_parsed hparse⟩
  obtain ⟨hlens, -⟩ := P2pPublishMsg.buildPublishFrame_iff.mp hbuild
  have hround := parsePublishFrame_buildPublishFrame
    ⟨hlens.topic_lt, hlens.topic_ne, hnul, hlens.payload_le⟩
  rwa [hbuild, Option.bind_some] at hround

/-- A frame of the node `1 … 1` with the payload `on`. -/
def onFrame (topic : Bytes) : Bytes :=
  P2pPublishMsg.wire ⟨fun _ ↦ 1, 7, topic, [111, 110], 1, 0⟩

theorem frame_reencodes_iff_lamp :
    (∀ frame, buildPublishFrame ⟨fun _ ↦ 1, 7, [97, 47, 98], [], 0, 0⟩ = some frame →
        parsePublishFrame frame = some ⟨fun _ ↦ 1, 7, [97, 47, 98], [], 0, 0⟩) ∧
      (buildPublishFrame ⟨fun _ ↦ 1, 7, [97, 47, 98], [111, 110], 1, 0⟩ =
        some (onFrame [97, 47, 98]) ↔ 0 ∉ frameTopic (onFrame [97, 47, 98])) :=
  frame_reencodes_iff (by decide) (P2pPublishMsg.parse_wire ⟨by decide, by decide, by decide⟩)

/-- The topic `a`, NUL, `b` goes on as the topic `a` in a frame that is two bytes shorter, and
a topic that begins with NUL does not go on at all. -/
theorem nul_topic_cut :
    (∃ msg, parsePublishFrame (onFrame [97, 0, 98]) = some msg ∧
      buildPublishFrame msg = some (onFrame [97]) ∧
      (onFrame [97]).length + 2 = (onFrame [97, 0, 98]).length) ∧
    ∃ msg, parsePublishFrame (onFrame [0, 98]) = some msg ∧ buildPublishFrame msg = none :=
  ⟨⟨_, P2pPublishMsg.parse_wire ⟨by decide, by decide, by decide⟩, by decide +kernel,
      by decide +kernel⟩,
    ⟨_, P2pPublishMsg.parse_wire ⟨by decide, by decide, by decide⟩, by decide +kernel⟩⟩

end MqttBroker
