import MqttBroker.Client.InflightTable
import MqttBroker.Client.Inflight
import MqttBroker.Lib.Observer
import MqttBroker.PublishFrame
import MqttBroker.SelfDelimiting

/-!
# The frames in the inflight table

The buffer of an inflight entry holds a PUBLISH first and may hold a PUBREL later, a retry
edits its first byte, and `client_free` reads it again with the parser of the network.
-/

namespace MqttBroker

open Observer

/-- What happens to the inflight table of a connection. -/
inductive InflightEvent where
  /-- `client_inflight_store` with the frame of a message -/
  | store (pub : MqttPublish) (frame : Bytes) (now : ℤ)
  /-- a frame that is not stored -/
  | send (sendOk : Bool)
  /-- a PUBACK or a PUBCOMP -/
  | ack (id : UInt16)
  | pubrec (id : UInt16) (now : ℤ) (sendOk : Bool)
  | retry (now : ℤ) (sendOk : Bool)

/-- The entry that `client_inflight_store` takes. -/
def Client.freeEntry (c : Client) : Option (Fin CLIENT_INFLIGHT_MAX) :=
  (List.finRange CLIENT_INFLIGHT_MAX).find? fun i ↦ !(c.inflight i).inUse

/-- The connection, beside the messages that were last stored in its entries. -/
def inflightSystem : System Client InflightEvent (Fin CLIENT_INFLIGHT_MAX → MqttPublish) where
  step
    | c, .store pub frame now => some (c.inflightStore pub.packetId frame pub.qos now)
    | c, .send sendOk => some (c.clientSend sendOk)
    | c, .ack id => some (c.inflightAck id)
    | c, .pubrec id now sendOk => some (c.pubrec id now sendOk).1
    | c, .retry now sendOk => some (c.inflightRetry now sendOk).1
  note
    | c, .store pub _ _, sent =>
        match c.freeEntry with
        | some i => Function.update sent i pub
        | none => sent
    | _, _, sent => sent

/-- What is stored was built from a message with a C string as its topic and, as in all callers
of `client_inflight_store`, 0 or 1 as its retain flag. -/
def StoresBuilt (_ : Client) (_ : Fin CLIENT_INFLIGHT_MAX → MqttPublish) : InflightEvent → Prop
  | .store pub frame _ => 0 ∉ pub.topic ∧ pub.retain ≤ 1 ∧
      packetBuildPublish pub PUBLISH_FRAME_MAX = some frame
  | _ => True

namespace Inflight

/-- The buffer for the message that was sent: its frame, maybe with DUP set, or the PUBREL for
it. -/
structure Tracks (e : Inflight) (pub : MqttPublish) : Prop where
  id : e.packetId = pub.packetId
  qos : e.qos = pub.qos
  publish : e.waitingPubcomp = false →
    ∃ dup, (dup = pub.dup ∨ dup = 1) ∧ e.Carries { pub with dup := dup }
  pubrel : e.waitingPubcomp = true → e.qos = 2 ∧ packetBuildPubrel e.packetId 4 = some e.buf

/-- The frame of a PUBLISH that parses to the message, up to its DUP flag. -/
def HoldsPublish (e : Inflight) (pub : MqttPublish) : Prop :=
  ∃ pkt dup, decodeFrame e.buf = some pkt ∧ pkt.typeFlags &&& 0xF0 = PacketType.publish ∧
    packetParsePublish pkt = some
      { pub with dup := dup, packetId := if 0 < e.qos then e.packetId else 0 }

/-- What the entry holds of the message. -/
structure Right (e : Inflight) (pub : MqttPublish) : Prop where
  id : e.packetId = pub.packetId
  qos : e.qos = pub.qos
  size : SelfDelimiting e.buf ∧ e.buf.length ≤ PUBLISH_FRAME_MAX
  publish : e.waitingPubcomp = false → e.HoldsPublish pub ∧
    ∃ frame, packetBuildPublish pub PUBLISH_FRAME_MAX = some frame ∧
      (e.buf = frame ∨ e.buf = Client.setDup frame)
  pubrel : e.waitingPubcomp = true → e.qos = 2 ∧ packetBuildPubrel e.packetId 4 = some e.buf
  /-- what `client_free` makes of an entry of QoS 1 -/
  reparse : e.qos = 1 → ∃ dup, e.reparse = some { pub with dup := dup }

/-! ## One entry -/

variable {e : Inflight} {pub : MqttPublish}

theorem Tracks.retryEntry (h : e.Tracks pub) (now : ℤ) :
    (Client.retryEntry now e).1.Tracks pub := by
  by_cases hskip : !e.inUse ∨ now - e.sentAtMs < CLIENT_INFLIGHT_RETRY_MS
  · rwa [Client.retryEntry, if_pos hskip]
  · rw [Client.retryEntry, if_neg hskip]
    cases hwait : e.waitingPubcomp with
    | false =>
        obtain ⟨dup, -, hcarries⟩ := h.publish hwait
        refine ⟨h.id, h.qos, fun _ ↦ ⟨1, Or.inr rfl, ?_⟩, fun hw ↦ ?_⟩
        · refine ⟨hcarries.nul, hcarries.retain, hcarries.qos, hcarries.id, ?_⟩
          simpa [hwait] using build_setDup hcarries.retain hcarries.frame
        · cases hw
    | true =>
        obtain ⟨hqos, hrel⟩ := h.pubrel hwait
        refine ⟨h.id, h.qos, fun hw ↦ ?_, fun _ ↦ ⟨hqos, ?_⟩⟩
        · cases hw
        · simpa [hqos, hwait] using hrel

theorem Carries.length_le (h : e.Carries pub) : e.buf.length ≤ PUBLISH_FRAME_MAX := by
  have hbuild := h.frame
  unfold packetBuildPublish at hbuild
  split_ifs at hbuild
  obtain ⟨enc, -, hout⟩ := Option.bind_eq_some_iff.mp hbuild
  dsimp only at hout
  split_ifs at hout with hfit
  rw [← Option.some.inj hout]
  exact not_lt.mp hfit

/-- The bits of the first byte, for a retain flag of 0 or 1. -/
theorem Carries.bits (h : e.Carries pub) :
    qosBits (publishHeader pub) = pub.qos ∧ retainBit (publishHeader pub) = pub.retain ∧
      publishHeader pub &&& 0xF0 = PacketType.publish := by
  have hs := sendable_of_build h.frame
  have hret : pub.retain = 0 ∨ pub.retain = 1 := by
    have hle := h.retain
    grind
  have hqos := u8_le_two hs.qos_le
  obtain ⟨hq, -, hr⟩ := publishHeader_bits hs.qos_le
  rw [hq, hr]
  unfold publishHeader
  rcases u8_and_one pub.dup with hd | hd <;> rcases hqos with hq' | hq' | hq' <;>
    rcases hret with hr' | hr' <;> rw [hd, hq', hr'] <;> decide

/-- A frame parses to the message it was built from, up to the DUP flag. -/
theorem Carries.holdsPublish (h : e.Carries pub) : e.HoldsPublish pub := by
  obtain ⟨enc, henc, hbuf⟩ := packetBuildPublish_frame h.frame
  obtain ⟨hq, hr, htype⟩ := h.bits
  have hparse := packetParsePublish_body (sendable_of_build h.frame) h.nul hq
    (publishBody pub).length
  refine ⟨_, dupBit (publishHeader pub), by rw [hbuf]; exact decodeFrame_built henc, htype, ?_⟩
  rw [hparse, ← h.id, ← h.qos]
  exact congrArg some (by rw [← hr]; rfl)

theorem Carries.reparse_eq (h : e.Carries pub) (hqos : e.qos = 1) :
    ∃ dup, e.reparse = some { pub with dup := dup } := by
  obtain ⟨enc, henc, hbuf⟩ := packetBuildPublish_frame h.frame
  obtain ⟨hq, hr, -⟩ := h.bits
  have hparse := packetParsePublish_body (sendable_of_build h.frame) h.nul hq 0
  have hpos : 0 < pub.qos := by
    rw [h.qos, hqos]
    decide
  refine ⟨dupBit (publishHeader pub), ?_⟩
  rw [Inflight.reparse, hbuf]
  simp only [packetDecode_packetEncode henc, Option.bind_eq_bind, Option.bind_some,
    List.drop_left, List.take_length, hparse, if_pos hpos]
  exact congrArg some (by rw [← hr]; rfl)

theorem Tracks.right (h : e.Tracks pub) : e.Right pub := by
  have hdup : ∀ {dup}, e.HoldsPublish { pub with dup := dup } → e.HoldsPublish pub := fun h ↦ h
  refine ⟨h.id, h.qos, ?_, fun hwait ↦ ?_, h.pubrel, fun hqos ↦ ?_⟩
  · cases hwait : e.waitingPubcomp with
    | false =>
        obtain ⟨dup, -, hcarries⟩ := h.publish hwait
        exact ⟨selfDelimiting_publish hcarries.frame, hcarries.length_le⟩
    | true =>
        have hrel := (h.pubrel hwait).2
        refine ⟨selfDelimiting_ack hrel, ?_⟩
        unfold packetBuildPubrel packetBuildAck at hrel
        split_ifs at hrel
        rw [← Option.some.inj hrel]
        exact (by decide : 4 ≤ PUBLISH_FRAME_MAX)
  · obtain ⟨dup, hcase, hcarries⟩ := h.publish hwait
    refine ⟨hdup hcarries.holdsPublish, ?_⟩
    have hs := sendable_of_build hcarries.frame
    have hsend : pub.Sendable :=
      ⟨hs.topic_lt, hs.topic_ne, hs.no_wildcard, hs.qos_le, hs.id_ne, hs.payload_le⟩
    obtain ⟨enc, -, hframe⟩ := packetBuildPublish_eq hsend
    refine ⟨_, hframe, ?_⟩
    rcases hcase with rfl | rfl
    · exact Or.inl (Option.some.inj (hcarries.frame.symm.trans hframe))
    · exact Or.inr (Option.some.inj
        (hcarries.frame.symm.trans (build_setDup hcarries.retain hframe)))
  · have hwait : e.waitingPubcomp = false := by
      by_contra hw
      have htwo := (h.pubrel (by simpa using hw)).1
      rw [hqos] at htwo
      exact absurd htwo (by decide)
    obtain ⟨dup, -, hcarries⟩ := h.publish hwait
    exact hcarries.reparse_eq hqos

end Inflight

/-! ## The table along a run -/

/-- Every entry in use is for the message that was last stored in it. -/
def TableTracks (c : Client) (sent : Fin CLIENT_INFLIGHT_MAX → MqttPublish) : Prop :=
  ∀ i, (c.inflight i).inUse = true → (c.inflight i).Tracks (sent i)

section

variable {c c' : Client} {sent : Fin CLIENT_INFLIGHT_MAX → MqttPublish}

theorem TableTracks.congr (h : TableTracks c sent) (heq : c'.inflight = c.inflight) :
    TableTracks c' sent := by
  intro i hi
  rw [heq] at hi ⊢
  exact h i hi

theorem TableTracks.update (h : TableTracks c sent) (i : Fin CLIENT_INFLIGHT_MAX) {e : Inflight}
    (he : e.inUse = true → e.Tracks (sent i)) :
    TableTracks { c with inflight := Function.update c.inflight i e } sent := by
  intro j hj
  by_cases hji : j = i
  · subst hji
    simp only [Function.update_self] at hj ⊢
    exact he hj
  · simp only [Function.update_of_ne hji] at hj ⊢
    exact h j hj

theorem TableTracks.store (h : TableTracks c sent) {pub : MqttPublish} {frame : Bytes} {now : ℤ}
    (hallowed : StoresBuilt c sent (.store pub frame now)) :
    TableTracks (c.inflightStore pub.packetId frame pub.qos now)
      (inflightSystem.note c (.store pub frame now) sent) := by
  obtain ⟨hnul, hretain, hframe⟩ := hallowed
  cases hfree : c.freeEntry with
  | none =>
      have hstore : c.inflightStore pub.packetId frame pub.qos now = c := by
        unfold Client.inflightStore
        unfold Client.freeEntry at hfree
        rw [hfree]
      have hnote : inflightSystem.note c (.store pub frame now) sent = sent := by
        simp only [inflightSystem, hfree]
      rwa [hstore, hnote]
  | some i =>
      have hstore : c.inflightStore pub.packetId frame pub.qos now = { c with
          inflight := Function.update c.inflight i
            ⟨pub.packetId, frame, now, true, pub.qos, false⟩ } := by
        unfold Client.inflightStore
        unfold Client.freeEntry at hfree
        rw [hfree]
      have hnote : inflightSystem.note c (.store pub frame now) sent =
          Function.update sent i pub := by
        simp only [inflightSystem, hfree]
      rw [hstore, hnote]
      intro j hj
      by_cases hji : j = i
      · subst hji
        simp only [Function.update_self] at hj ⊢
        exact ⟨rfl, rfl, fun _ ↦ ⟨pub.dup, Or.inl rfl, hnul, hretain, rfl, rfl, hframe⟩,
          fun hw ↦ (nomatch hw)⟩
      · simp only [Function.update_of_ne hji] at hj ⊢
        exact h j hj

theorem TableTracks.pubrec (h : TableTracks c sent) (id : UInt16) (now : ℤ) (sendOk : Bool) :
    TableTracks (c.pubrec id now sendOk).1 sent := by
  unfold Client.pubrec
  split
  · exact h
  · next i hi =>
      have hp := List.find?_some hi
      simp only [Bool.and_eq_true, decide_eq_true_eq] at hp
      obtain ⟨⟨⟨huse, hid⟩, hqos⟩, -⟩ := hp
      split
      · exact h
      · next rel hrel =>
          have hsent : TableTracks (c.clientSend sendOk) sent := h.congr (c.clientSend_inflight _)
          have hentry := h i huse
          refine hsent.update i fun _ ↦ ?_
          rw [c.clientSend_inflight]
          refine ⟨hentry.id, hentry.qos, fun hw ↦ (nomatch hw), fun _ ↦ ⟨hqos, ?_⟩⟩
          dsimp only
          rw [hid]
          exact hrel

theorem TableTracks.retry (h : TableTracks c sent) (now : ℤ) (sendOk : Bool) :
    TableTracks (c.inflightRetry now sendOk).1 sent := by
  intro i hi
  rw [Client.inflightRetry_inflight] at hi ⊢
  refine (h i ?_).retryEntry now
  rw [← hi]
  exact ((retryEntry_kept now _).1).inUse.symm

theorem TableTracks.step (h : TableTracks c sent) {e : InflightEvent}
    (hallowed : StoresBuilt c sent e) (hstep : inflightSystem.step c e = some c') :
    TableTracks c' (inflightSystem.note c e sent) := by
  cases e with
  | store pub frame now =>
      cases hstep
      exact h.store hallowed
  | send sendOk =>
      cases hstep
      exact h.congr (c.clientSend_inflight sendOk)
  | ack id =>
      cases hstep
      unfold Client.inflightAck
      split
      · exact h.update _ fun hfree ↦ by cases hfree
      · exact h
  | pubrec id now sendOk =>
      cases hstep
      exact h.pubrec id now sendOk
  | retry now sendOk =>
      cases hstep
      exact h.retry now sendOk

end

/-- In every run that starts with an empty table, each entry in use holds the frame of the
message that was stored in it, or the PUBREL for it. -/
theorem inflight_frames_right {c₀ c : Client} {sent₀ sent : Fin CLIENT_INFLIGHT_MAX → MqttPublish}
    (hempty : ∀ i, (c₀.inflight i).inUse = false)
    (h : Reach inflightSystem StoresBuilt c₀ sent₀ c sent) (i : Fin CLIENT_INFLIGHT_MAX)
    (huse : (c.inflight i).inUse = true) : (c.inflight i).Right (sent i) := by
  have htracks : TableTracks c sent := by
    refine h.invariant ?_ fun _ htracks hallowed hstep ↦ htracks.step hallowed hstep
    intro j hj
    rw [hempty j] at hj
    cases hj
  exact (htracks i huse).right

namespace FramesSample

def client : Client := { clientAllocated 5 with clientId := [0x61] }

def first : Fin CLIENT_INFLIGHT_MAX := ⟨0, by decide⟩
def second : Fin CLIENT_INFLIGHT_MAX := ⟨1, by decide⟩

def qos1 : MqttPublish := ⟨[0x74], [0x78], 1, 0, 0, 1⟩
def qos2 : MqttPublish := ⟨[0x75], [], 2, 1, 0, 2⟩

/-- One message is sent again, the other one gets as far as its PUBREL. -/
def events : List InflightEvent :=
  [.store qos1 [0x32, 0x06, 0x00, 0x01, 0x74, 0x00, 0x01, 0x78] 0,
    .store qos2 [0x35, 0x05, 0x00, 0x01, 0x75, 0x00, 0x02] 10, .retry 5005 true,
    .pubrec 2 5010 true]

theorem events_allowed (c : Client) (sent : Fin CLIENT_INFLIGHT_MAX → MqttPublish) :
    ∀ e ∈ events, StoresBuilt c sent e := by
  simp only [events, List.forall_mem_cons, List.not_mem_nil, false_implies, implies_true, and_true,
    StoresBuilt]
  decide +kernel

end FramesSample

open FramesSample

theorem inflight_frames_right_retried : ∃ c sent,
    run inflightSystem (client, fun _ ↦ default) events = some (c, sent) ∧
      (c.inflight first).buf = [0x3A, 0x06, 0x00, 0x01, 0x74, 0x00, 0x01, 0x78] ∧
      (c.inflight second).buf = [0x62, 0x02, 0x00, 0x02] ∧
      (c.inflight first).Right (sent first) ∧ (c.inflight second).Right (sent second) := by
  have hempty : ∀ i, (client.inflight i).inUse = false := fun _ ↦ rfl
  refine ⟨_, _, rfl, by decide +kernel, by decide +kernel, ?_, ?_⟩
  · exact inflight_frames_right hempty (Reach.run events_allowed .start rfl) first
      (by decide +kernel)
  · exact inflight_frames_right hempty (Reach.run events_allowed .start rfl) second
      (by decide +kernel)

end MqttBroker
