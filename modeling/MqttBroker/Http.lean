import MqttBroker.Mesh.Message

/-!
# Publishing from the dashboard

`handle_publish_api` of `http.c`, and the three functions with which it looks
for values in the body of a request.
-/

namespace MqttBroker

/-- `strstr`: the string from the first occurrence on. -/
def strstr (needle : CStr) : CStr → Option CStr
  | [] => if needle = [] then some [] else none
  | c :: s => if needle.isPrefixOf (c :: s) then some (c :: s) else strstr needle s

namespace Json

def quote : UInt8 := 0x22
def colon : UInt8 := 0x3A
def space : UInt8 := 0x20

/-- `"topic"` -/
def topic : CStr := [0x74, 0x6F, 0x70, 0x69, 0x63]

/-- `"payload"` -/
def payload : CStr := [0x70, 0x61, 0x79, 0x6C, 0x6F, 0x61, 0x64]

/-- `"qos"` -/
def qos : CStr := [0x71, 0x6F, 0x73]

end Json

/-- `json_find_value` -/
def jsonFindValue (json key : CStr) : Option CStr :=
  let search := Json.quote :: (key ++ [Json.quote, Json.colon])
  (strstr search json).map fun p ↦ (p.drop search.length).dropWhile (· = Json.space)

/-- `json_str` into a buffer of `cap` bytes. -/
def jsonStr (json key : CStr) (cap : ℕ) : Option CStr :=
  match jsonFindValue json key with
  | some (c :: p) => if c = Json.quote then some ((p.takeWhile (· ≠ Json.quote)).take (cap - 1))
      else none
  | _ => none

def isDigit (c : UInt8) : Bool := 0x30 ≤ c && c ≤ 0x39

def isSpace (c : UInt8) : Bool := c = Json.space || (0x09 ≤ c && c ≤ 0x0D)

/-- `atoi`, for a value that fits an `int`. -/
def atoi (s : CStr) : ℤ :=
  let value (s : CStr) : ℤ :=
    (s.takeWhile isDigit).foldl (fun n c ↦ 10 * n + ((c.toNat : ℤ) - 0x30)) 0
  match s.dropWhile isSpace with
  | [] => 0
  | c :: s => if c = 0x2D then -value s else if c = Ch.plus then value s else value (c :: s)

/-- `json_int` -/
def jsonInt (json key : CStr) : ℤ :=
  match jsonFindValue json key with
  | some p => atoi p
  | none => 0

/-- What `handle_publish_api` passes to `topic_publish`; without a topic it
answers with an error. -/
def handlePublishApi (body : CStr) : Option MqttPublish :=
  match jsonStr body Json.topic MQTT_TOPIC_MAX with
  | none => none
  | some topic =>
      if topic = [] then none
      else
        let payload := (jsonStr body Json.payload MQTT_PAYLOAD_MAX).getD []
        let qos := jsonInt body Json.qos
        let qos := if qos < 0 ∨ 2 < qos then 0 else qos
        some ⟨topic.take (MQTT_TOPIC_MAX - 1), payload, UInt8.ofNat qos.toNat, 0, 0, 0⟩

theorem strstr_suffix {needle s p : CStr} (h : strstr needle s = some p) : p <:+ s := by
  induction s with
  | nil =>
      rw [strstr] at h
      split_ifs at h
      cases h
      exact List.suffix_refl []
  | cons c s ih =>
      rw [strstr] at h
      split_ifs at h
      · cases h
        exact List.suffix_refl _
      · exact (ih h).trans (List.suffix_cons c s)

/-- The strings found are parts of the body. -/
theorem jsonStr_subset {json key s : CStr} {cap : ℕ} (h : jsonStr json key cap = some s) :
    s ⊆ json ∧ s.length ≤ cap - 1 := by
  unfold jsonStr at h
  split at h
  · rename_i c p hfind
    split_ifs at h
    cases h
    obtain ⟨q, hq, heq⟩ := Option.map_eq_some_iff.mp hfind
    refine ⟨fun x hx ↦ ?_, List.length_take_le _ _⟩
    have hp : x ∈ c :: p :=
      List.mem_cons_of_mem c ((List.takeWhile_prefix _).subset (List.mem_of_mem_take hx))
    rw [← heq] at hp
    exact (strstr_suffix hq).subset
      (List.mem_of_mem_drop ((List.dropWhile_suffix _).subset hp))
  · cases h

/-- A message from the dashboard fits `mqtt_publish_t`, and it has a topic
without a test of it. -/
theorem handlePublishApi_fits {body : CStr} {pub : MqttPublish}
    (h : handlePublishApi body = some pub) :
    pub.topic ⊆ body ∧ pub.topic.length < MQTT_TOPIC_MAX ∧
      pub.payload.length ≤ MQTT_PAYLOAD_MAX ∧ pub.retain = 0 := by
  unfold handlePublishApi at h
  split at h
  · cases h
  · rename_i topic htopic
    split_ifs at h
    cases h
    refine ⟨fun x hx ↦ (jsonStr_subset htopic).1 (List.mem_of_mem_take hx),
      lt_of_le_of_lt (List.length_take_le _ _) (by decide), ?_, rfl⟩
    dsimp only
    cases hpayload : jsonStr body Json.payload MQTT_PAYLOAD_MAX with
    | none => exact Nat.zero_le _
    | some payload => exact (jsonStr_subset hpayload).2.trans (Nat.sub_le _ _)

end MqttBroker
