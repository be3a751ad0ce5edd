import Mathlib

/-!
# Strings and compile-time limits

A C string is the list of its bytes before the terminating NUL, so the test
`*p == '\0'` of the source is the test for the empty list.
-/

namespace MqttBroker

abbrev CStr := List UInt8

namespace Ch

def slash : UInt8 := 0x2F
def plus : UInt8 := 0x2B
def hash : UInt8 := 0x23
def dollar : UInt8 := 0x24

@[simp] theorem plus_ne_slash : plus ≠ slash := by decide
@[simp] theorem hash_ne_slash : hash ≠ slash := by decide
@[simp] theorem plus_ne_hash : plus ≠ hash := by decide
@[simp] theorem slash_ne_plus : slash ≠ plus := by decide
@[simp] theorem slash_ne_hash : slash ≠ hash := by decide
@[simp] theorem hash_ne_plus : hash ≠ plus := by decide

end Ch

/-- `strpbrk(s, "+#") != NULL`. -/
def hasWildcard (s : CStr) : Bool := s.any fun c ↦ c = Ch.plus || c = Ch.hash

theorem hasWildcard_eq_false_iff {s : CStr} :
    hasWildcard s = false ↔ Ch.plus ∉ s ∧ Ch.hash ∉ s := by
  simp only [hasWildcard, List.any_eq_false, Bool.or_eq_true, decide_eq_true_eq, not_or]
  constructor
  · exact fun h ↦ ⟨fun hp ↦ (h _ hp).1 rfl, fun hh ↦ (h _ hh).2 rfl⟩
  · rintro ⟨hp, hh⟩ c hc
    exact ⟨fun e ↦ hp (e ▸ hc), fun e ↦ hh (e ▸ hc)⟩

/-- The sizes a build chooses: the macros the headers leave open to `-D` or to
Kconfig, all positive, with `P2P_SEEN_MAX` a power of two. -/
structure Config where
  /-- `CONFIG_MQTT_P2P_DYNAMIC` -/
  p2pDynamic : Bool
  /-- `MQTT_MAX_CLIENTS`, also the number of sessions -/
  maxClients : ℕ
  /-- `TOPIC_MAX_SUBS` -/
  topicMaxSubs : ℕ
  /-- `P2P_PEER_MAX` -/
  peerMax : ℕ
  /-- `P2P_REMOTE_SUBS_PER_NODE` -/
  remoteSubsPerNode : ℕ
  /-- `log2(P2P_SEEN_MAX)` -/
  seenBits : ℕ
  /-- `CONFIG_MQTT_AUTH_ENABLED` with its user name and password -/
  auth : Option (CStr × CStr) := none
  maxClients_pos : 0 < maxClients := by decide
  topicMaxSubs_pos : 0 < topicMaxSubs := by decide
  peerMax_pos : 0 < peerMax := by decide
  remoteSubsPerNode_pos : 0 < remoteSubsPerNode := by decide

/-- The defaults of a POSIX build with `P2P=1`. -/
def Config.posix : Config where
  p2pDynamic := true
  maxClients := 8
  topicMaxSubs := 64
  peerMax := 10
  remoteSubsPerNode := 32
  seenBits := 7

/-- Sizes from `packet.h` that no build option changes. -/
def MQTT_TOPIC_MAX : ℕ := 128
def MQTT_PAYLOAD_MAX : ℕ := 512
def MQTT_MAX_PACKET_SIZE : ℕ := MQTT_TOPIC_MAX + MQTT_PAYLOAD_MAX + 64
def MQTT_CLIENT_ID_MAX : ℕ := 24

/-! ## Numerals of index types -/

-- before the instances of the library, whose terms would have to be abstracted
instance (priority := 1100) neZero_succ (k : ℕ) : NeZero (k + 1) := ⟨Nat.succ_ne_zero k⟩

instance (priority := 1200) neZero_peerMax_succ (cfg : Config) : NeZero (cfg.peerMax + 1) :=
  ⟨Nat.succ_ne_zero _⟩

instance (priority := 1200) neZero_two : NeZero 2 := ⟨by decide⟩

instance (priority := 1200) neZero_three : NeZero 3 := ⟨by decide⟩

instance (priority := 1200) neZero_eight : NeZero 8 := ⟨by decide⟩

end MqttBroker
