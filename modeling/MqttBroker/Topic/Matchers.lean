import MqttBroker.Topic.Match

/-!
# The other copies of the matcher

`p2p_router.c`, `broker.c` and `p2p_peer.c` each have their own copy of the
topic matcher.  They differ from `topic_match` of `topic.c` in the test on
`$` topics and in what a final `#` may match.
-/

namespace MqttBroker

open Ch

/-! ## The code -/

namespace Router

/-- `topic_match` of `p2p_router.c`. -/
def topicMatch (filter topic : CStr) : Bool := matchFrom false filter topic

end Router

/-- `mqtt_topic_match` of `broker.c`. -/
def mqttTopicMatch (filter topic : CStr) : Bool := matchFrom true filter topic

/-- The loop of `topic_match_local`: a `+` steps over the `/` after its level
in the same round. -/
def matchWalkLocal : CStr → CStr → WalkEnd
  | [], t => .stopped [] t
  | c :: f, [] => .stopped (c :: f) []
  | c :: f, d :: t =>
      if c = hash then if f = [] then .accept else .reject
      else if c = plus then
        match f, skipLevel (d :: t) with
        | e :: f', e' :: t' =>
            if e = slash ∧ e' = slash then matchWalkLocal f' t'
            else matchWalkLocal (e :: f') (e' :: t')
        | [], t' => .stopped [] t'
        | e :: f', [] => .stopped (e :: f') []
      else if c ≠ d then .reject
      else matchWalkLocal f t
  termination_by structural f => f

/-- `topic_match_local` of `p2p_peer.c`. -/
def topicMatchLocal (filter topic : CStr) : Bool :=
  match matchWalkLocal filter topic with
  | .accept => true
  | .reject => false
  | .stopped f t => if f = [slash, hash] then true else f = [] ∧ t = []

/-! ## What each copy compares -/

theorem matchWalkLocal_end (c : UInt8) (f : CStr) :
    matchWalkLocal (c :: f) [] = .stopped (c :: f) [] := by
  rw [matchWalkLocal.eq_def]

theorem matchWalkLocal_char {c : UInt8} (h₁ : c ≠ hash) (h₂ : c ≠ plus) (f : CStr)
    (d : UInt8) (t : CStr) :
    matchWalkLocal (c :: f) (d :: t) = if c = d then matchWalkLocal f t else .reject := by
  rw [matchWalkLocal.eq_def]
  simp only [h₁, h₂, if_false, ne_eq, ite_not]

theorem matchWalkLocal_plus (f : CStr) (d : UInt8) (t : CStr) :
    matchWalkLocal (plus :: f) (d :: t) = matchWalkLocal f (skipLevel (d :: t)) := by
  rw [matchWalkLocal.eq_def]
  simp only [plus_ne_hash, if_false, if_true]
  cases f with
  | nil => simp [matchWalkLocal]
  | cons e f =>
      cases hs : skipLevel (d :: t) with
      | nil => simp [matchWalkLocal_end]
      | cons e' t' =>
          by_cases he : e = slash ∧ e' = slash
          · obtain ⟨rfl, rfl⟩ := he
            simp [matchWalkLocal_char slash_ne_hash slash_ne_plus]
          · simp [he]

theorem topicMatchLocal_levelWalk : LevelWalk true false topicMatchLocal where
  filterEnd t := by cases t <;> simp [topicMatchLocal, matchWalkLocal]
  topicEnd c f hc := by simp [topicMatchLocal, matchWalkLocal]
  hashAtEnd := by decide
  hashInside d t := by simp [topicMatchLocal, matchWalkLocal]
  plusStep f d t := by simp only [topicMatchLocal, matchWalkLocal_plus]
  charStep c f d t h₁ h₂ := by
    simp only [topicMatchLocal, matchWalkLocal_char h₁ h₂]
    by_cases hd : c = d <;> simp [hd]

/-- The walk accepts: level-wise matching less a `+` at an empty end. -/
def walkMatches (filter topic : CStr) : Prop :=
  levelsMatch (levels filter) (levels topic) = true ∧
    ¬ wildAtEmptyEnd plus (levels filter) (levels topic)

instance (filter topic : CStr) : Decidable (walkMatches filter topic) := by
  unfold walkMatches; infer_instance

section

variable {filter : CStr} (hf : topicFilterValid filter = true) (topic : CStr)

include hf

theorem topicMatch_iff_walkMatches :
    topicMatch filter topic = true ↔ ¬ dollarTopic filter topic ∧ walkMatches filter topic := by
  rw [topicMatch_iff hf]
  simp [filterMatches, walkMatches, and_assoc]

/-- `mqtt_topic_match` has no test on `$` topics. -/
theorem mqttTopicMatch_iff :
    mqttTopicMatch filter topic = true ↔ walkMatches filter topic := by
  rw [mqttTopicMatch, (matchFrom_levelWalk true).eq_codeLevels hf, codeLevels_iff]
  simp [walkMatches]

/-- The router's copy also lacks the parent-level rule of a final `#`. -/
theorem routerTopicMatch_iff :
    Router.topicMatch filter topic = true ↔
      walkMatches filter topic ∧ (levels filter).length ≠ (levels topic).length + 1 := by
  rw [Router.topicMatch, (matchFrom_levelWalk false).eq_codeLevels hf, codeLevels_iff]
  simp [walkMatches, and_assoc]

/-- The copy of `p2p_peer.c` does not let `#` match an empty last level. -/
theorem topicMatchLocal_iff :
    topicMatchLocal filter topic = true ↔
      walkMatches filter topic ∧ ¬ wildAtEmptyEnd hash (levels filter) (levels topic) := by
  rw [topicMatchLocal_levelWalk.eq_codeLevels hf, codeLevels_iff]
  simp [walkMatches, and_assoc]

end

/-! ## Agreement -/

/-- The three other copies answer as `topic_match` of `topic.c` does. -/
def MatchersAgree (filter topic : CStr) : Prop :=
  mqttTopicMatch filter topic = topicMatch filter topic ∧
    Router.topicMatch filter topic = topicMatch filter topic ∧
    topicMatchLocal filter topic = topicMatch filter topic

/-- On a filter whose walk accepts the topic, the copies part on a `$` topic,
on a `#` at the topic's parent level and on a `#` at an empty last level. -/
theorem matchersAgree_iff (filter topic : CStr) (hf : topicFilterValid filter = true) :
    MatchersAgree filter topic ↔
      ¬(walkMatches filter topic ∧
        (dollarTopic filter topic ∨ (levels filter).length = (levels topic).length + 1 ∨
          wildAtEmptyEnd hash (levels filter) (levels topic))) := by
  unfold MatchersAgree
  simp only [Bool.eq_iff_iff, topicMatch_iff_walkMatches hf, mqttTopicMatch_iff hf,
    routerTopicMatch_iff hf, topicMatchLocal_iff hf]
  by_cases hw : walkMatches filter topic
  · by_cases hd : dollarTopic filter topic
    · simp [hw, hd]
    · simp [hw, hd]
  · simp [hw]

/-- The filter `a/#` and the topic `a/b`. -/
theorem matchersAgree_below_parent : MatchersAgree [97, slash, hash] [97, slash, 98] :=
  (matchersAgree_iff [97, slash, hash] [97, slash, 98] (by decide)).mpr (by decide)

/-- The filter `#` and the topic `$S`. -/
theorem matchers_disagree_on_dollar :
    ¬ ∀ filter topic : CStr, topicFilterValid filter = true → topic ≠ [] →
      hasWildcard topic = false → MatchersAgree filter topic := by
  intro h
  have hagree := h [hash] [dollar, 83] (by decide) (by decide) (by decide)
  exact absurd hagree.1 (by decide)

end MqttBroker
