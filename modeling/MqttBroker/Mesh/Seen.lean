import MqttBroker.Mesh.Message
import MqttBroker.Lib.DirectMapped
import MqttBroker.Lib.History

/-!
# The seen cache

`seen_before` of `p2p_peer.c`: the publishes a broker remembers, known by their
origin and a 16-bit sequence number.
-/

namespace MqttBroker

open History

variable {cfg : Config}

/-- `seen_msg_t` -/
structure SeenMsg where
  originId : NodeId
  seq : UInt16
  deriving DecidableEq

/-- The static array `seen`. -/
abbrev SeenCache (cfg : Config) := Fin (2 ^ cfg.seenBits) → SeenMsg

/-- An entry as it is at the start. -/
def SeenMsg.zeroed : SeenMsg := ⟨fun _ ↦ 0, 0⟩

/-- What `seen_before` looks at in a message. -/
def P2pPublishMsg.key (msg : P2pPublishMsg) : SeenMsg := ⟨msg.originId, msg.seq⟩

/-- The hash in `seen_before`. -/
def seenHash (k : SeenMsg) : UInt32 :=
  let byte := fun i : Fin P2P_NODE_ID_LEN ↦ (k.originId i).toUInt32
  let h := byte ⟨0, by decide⟩ ||| byte ⟨1, by decide⟩ <<< 8 ||| byte ⟨2, by decide⟩ <<< 16 |||
    byte ⟨3, by decide⟩ <<< 24
  let h := h ^^^ k.seq.toUInt32
  let h := h ^^^ h >>> 16
  let h := h * 0x45d9f3b
  h ^^^ h >>> 16

/-- `h & (P2P_SEEN_MAX - 1)` -/
def seenIndex (cfg : Config) (k : SeenMsg) : Fin (2 ^ cfg.seenBits) :=
  ⟨(seenHash k).toNat % 2 ^ cfg.seenBits, Nat.mod_lt _ (Nat.two_pow_pos _)⟩

/-- `seen_before`: its result and the cache after it. -/
def seenBefore (seen : SeenCache cfg) (msg : P2pPublishMsg) : Bool × SeenCache cfg :=
  let idx := seenIndex cfg msg.key
  if (seen idx).seq = msg.seq ∧ (seen idx).originId = msg.originId then (true, seen)
  else (false, Function.update seen idx ⟨msg.originId, msg.seq⟩)

theorem seenBefore_eq_visit (seen : SeenCache cfg) (msg : P2pPublishMsg) :
    seenBefore seen msg = DirectMapped.visit (seenIndex cfg) seen msg.key := by
  have hiff : ((seen (seenIndex cfg msg.key)).seq = msg.seq ∧
      (seen (seenIndex cfg msg.key)).originId = msg.originId) ↔
        seen (seenIndex cfg msg.key) = msg.key := by
    rw [P2pPublishMsg.key, SeenMsg.mk.injEq, and_comm]
  unfold seenBefore DirectMapped.visit
  simp only [hiff]
  rfl

/-! ## Publish events -/

/-- `local_seq` after this many calls of `p2p_publish_from_local` since the start. -/
def localSeq : ℕ → UInt16
  | 0 => 0
  | n + 1 => localSeq n + 1

theorem localSeq_eq (n : ℕ) : localSeq n = UInt16.ofNat n := by
  induction n with
  | zero => rfl
  | succ n ih => rw [localSeq, ih, UInt16.ofNat_add]; rfl

/-- A call of `p2p_publish_from_local`: its broker, how often that had been
started, and the calls since then. -/
structure PublishEvent where
  origin : NodeId
  start : ℕ
  earlier : ℕ
  deriving DecidableEq

/-- A frame of a publish event as another broker parses it. -/
structure ReceivedPublish where
  event : PublishEvent
  topic : CStr
  payload : Bytes
  qos : UInt8
  retain : UInt8

namespace ReceivedPublish

def msg (f : ReceivedPublish) : P2pPublishMsg :=
  ⟨f.event.origin, localSeq (f.event.earlier + 1), f.topic, f.payload, f.qos, f.retain⟩

end ReceivedPublish

/-- The cache of a broker that has handled these frames since it was started. -/
def seenAfter (cfg : Config) (past : List ReceivedPublish) : SeenCache cfg :=
  past.foldl (fun seen f ↦ (seenBefore seen f.msg).2) fun _ ↦ .zeroed

namespace ReceivedPublish

/-- The frame is taken for a repeated one. -/
def Suppressed (cfg : Config) (past : List ReceivedPublish) (f : ReceivedPublish) : Prop :=
  (seenBefore (seenAfter cfg past) f.msg).1 = true

/-- An earlier frame of the event has been passed on. -/
def Processed (cfg : Config) (past : List ReceivedPublish) (f : ReceivedPublish) : Prop :=
  ∃ before g after, past = before ++ g :: after ∧ g.event = f.event ∧ ¬ g.Suppressed cfg before

/-- The last frame in the slot of `f`. -/
def lastInSlot (cfg : Config) (past : List ReceivedPublish) (f : ReceivedPublish) :
    Option ReceivedPublish :=
  (past.filter fun g ↦ seenIndex cfg g.msg.key = seenIndex cfg f.msg.key).getLast?

/-- The slot of a frame of a new event was last visited by a frame with another
origin or number, or never and the frame is not like a slot of the start. -/
def Distinguished (cfg : Config) (past : List ReceivedPublish) (f : ReceivedPublish) : Prop :=
  (∀ g ∈ past, g.event ≠ f.event) →
    ((lastInSlot cfg past f).elim .zeroed fun g ↦ g.msg.key) ≠ f.msg.key

theorem seenAfter_eq (past : List ReceivedPublish) : seenAfter cfg past =
    DirectMapped.after (seenIndex cfg) (fun _ ↦ .zeroed) (past.map fun f ↦ f.msg.key) := by
  unfold seenAfter DirectMapped.after
  rw [List.foldl_map]
  simp only [seenBefore_eq_visit]

theorem suppressed_iff {past : List ReceivedPublish} {f : ReceivedPublish} :
    f.Suppressed cfg past ↔
      ((lastInSlot cfg past f).elim .zeroed fun g ↦ g.msg.key) = f.msg.key := by
  unfold Suppressed lastInSlot
  rw [seenBefore_eq_visit, DirectMapped.visit_hit, seenAfter_eq, DirectMapped.after_apply,
    List.filter_map, List.getLast?_map]
  simp only [Function.comp_def]
  cases (past.filter fun g ↦ seenIndex cfg g.msg.key = seenIndex cfg f.msg.key).getLast? <;> rfl

/-- A frame of an event with a processed frame before it is not the first one. -/
theorem Processed.mem {past : List ReceivedPublish} {f : ReceivedPublish}
    (h : f.Processed cfg past) : ∃ g ∈ past, g.event = f.event := by
  obtain ⟨before, g, after, rfl, hevent, -⟩ := h
  exact ⟨g, by simp, hevent⟩

end ReceivedPublish

open ReceivedPublish

/-- In every sequence of frames: a frame is taken for a repeated one only if one
of its event was passed on before, if and only if every frame of a new event is
distinguished from what its slot holds. -/
theorem suppressed_processed_iff (cfg : Config) (frames : List ReceivedPublish) :
    Along (fun past f ↦ f.Suppressed cfg past → f.Processed cfg past) frames ↔
      Along (fun past f ↦ f.Distinguished cfg past) frames := by
  constructor
  · intro h past f later heq hnew hkey
    obtain ⟨g, hg, hevent⟩ := (h past f later heq (suppressed_iff.mpr hkey)).mem
    exact hnew g hg hevent
  · intro h past f later heq hsup
    have hold : ∃ g ∈ past, g.event = f.event := by
      by_contra hnone
      push Not at hnone
      exact h past f later heq hnone (suppressed_iff.mp hsup)
    -- the first frame of the event is a new one
    have hfound : (past.find? fun g ↦ g.event = f.event).isSome := by
      simpa [List.find?_isSome] using hold
    obtain ⟨g, hfind⟩ := Option.isSome_iff_exists.mp hfound
    obtain ⟨hg, before, after, rfl, hbefore⟩ := List.find?_eq_some_iff_append.mp hfind
    refine ⟨before, g, after, rfl, of_decide_eq_true hg, fun hgsup ↦ ?_⟩
    refine h before g (after ++ f :: later) (by rw [heq]; simp) (fun k hk hevent ↦ ?_)
      (suppressed_iff.mp hgsup)
    have hne := hbefore k hk
    rw [hevent, of_decide_eq_true hg] at hne
    simp at hne

/-- The first publish after the first start of a broker and after its second. -/
def firstAfterStart (start : ℕ) : ReceivedPublish := ⟨⟨fun _ ↦ 1, start, 0⟩, [0x61], [], 0, 0⟩

/-- A broker that is started again publishes under the numbers it has used. -/
theorem restarted_suppressed : ¬ Along (fun past f ↦ f.Suppressed Config.posix past →
    f.Processed Config.posix past) [firstAfterStart 0, firstAfterStart 1] := by
  intro h
  have hsup : (firstAfterStart 1).Suppressed Config.posix [firstAfterStart 0] := by
    unfold Suppressed
    decide +kernel
  obtain ⟨g, hg, hevent⟩ := (h [firstAfterStart 0] (firstAfterStart 1) [] rfl hsup).mem
  obtain rfl := List.mem_singleton.mp hg
  simp [firstAfterStart] at hevent


end MqttBroker
