import MqttBroker.Mesh.Shard
import MqttBroker.Topic.Matchers

/-!
# Shards of filters and topics

A filter without wildcards in its first levels and a topic that it matches
have one shard key.  The key of a filter and the key of a topic come from two
walks over the strings, which stay together up to the second slash.
-/

namespace MqttBroker

open Ch

/-- `+` and `#` do not occur in the first `n` levels. -/
def LiteralLevels (n : ℕ) (s : CStr) : Prop := ∀ l ∈ (levels s).take n, hasWildcard l = false

instance (n : ℕ) (s : CStr) : Decidable (LiteralLevels n s) := by
  unfold LiteralLevels; infer_instance

namespace LiteralLevels

variable {n : ℕ} {c : UInt8} {s : CStr}

theorem head (h : LiteralLevels (n + 1) (c :: s)) : c ≠ plus ∧ c ≠ hash := by
  by_cases hc : c = slash
  · subst hc
    exact ⟨slash_ne_plus, slash_ne_hash⟩
  · obtain ⟨l, ls, hl⟩ := exists_levels s
    have hfirst := h (c :: l) (by rw [levels_cons hc hl]; exact List.mem_cons_self)
    simp only [hasWildcard, List.any_cons] at hfirst
    simpa using (Bool.or_eq_false_iff.mp hfirst).1

theorem slash (h : LiteralLevels (n + 1) (Ch.slash :: s)) : LiteralLevels n s := fun l hl ↦
  h l <| by
    rw [levels_slash, List.take_succ_cons]
    exact List.mem_cons_of_mem _ hl

theorem tail (hc : c ≠ Ch.slash) (h : LiteralLevels (n + 1) (c :: s)) :
    LiteralLevels (n + 1) s := by
  obtain ⟨l, ls, hl⟩ := exists_levels s
  intro m hm
  rw [hl, List.take_succ_cons] at hm
  rw [LiteralLevels, levels_cons hc hl, List.take_succ_cons] at h
  rcases List.mem_cons.mp hm with rfl | hm
  · have hfirst := h _ List.mem_cons_self
    simp only [hasWildcard, List.any_cons, Bool.or_eq_false_iff] at hfirst ⊢
    exact hfirst.2
  · exact h m (List.mem_cons_of_mem _ hm)

end LiteralLevels

variable {parent hashEnd : Bool} {walk : CStr → CStr → Bool}

/-- With `n + 1` levels to go, the filter's walk may stop one slash behind the topic's: at the
slash before a final `#` that matches the parent level. -/
theorem LevelWalk.shardKeyScan_eq (h : LevelWalk parent hashEnd walk) {filter topic : CStr}
    {n slashes : ℕ} (len : ℕ) (hn : P2P_SHARD_KEY_LEVELS = slashes + (n + 1))
    (hlit : LiteralLevels (n + 1) filter) (hmatch : walk filter topic = true) :
    shardKeyScan len slashes filter = shardKeyScan len slashes topic ∨
      shardKeyScan len slashes filter = shardKeyScan len slashes topic ++ [slash] := by
  induction filter generalizing topic n slashes len with
  | nil =>
      rw [h.filterEnd, decide_eq_true_eq] at hmatch
      rw [hmatch]
      exact Or.inl rfl
  | cons c f ih =>
      obtain ⟨hplus, hhash⟩ := hlit.head
      have hwild : ¬ (c = plus ∨ c = hash) := not_or.mpr ⟨hplus, hhash⟩
      cases topic with
      | nil =>
          rw [h.topicEnd c f hhash, decide_eq_true_eq, List.cons.injEq] at hmatch
          obtain ⟨-, rfl, rfl⟩ := hmatch
          rw [shardKeyScan, shardKeyScan, if_neg hwild, if_pos rfl]
          cases n with
          | zero =>
              rw [if_pos hn.le]
              split_ifs
              · exact Or.inl rfl
              · exact Or.inr rfl
          | succ n => exact absurd rfl hlit.slash.head.2
      | cons d t =>
          rw [h.charStep c f d t hhash hplus, Bool.and_eq_true, decide_eq_true_eq] at hmatch
          obtain ⟨rfl, hrest⟩ := hmatch
          rw [shardKeyScan, shardKeyScan, if_neg hwild]
          split_ifs with hfull hslash hlast
          · exact Or.inl rfl
          · exact Or.inl rfl
          · subst hslash
            cases n with
            | zero => exact absurd hn.le hlast
            | succ n =>
                have hn' : P2P_SHARD_KEY_LEVELS = slashes + 1 + (n + 1) := by omega
                refine (ih (len + 1) hn' hlit.slash hrest).imp ?_ ?_
                · exact congrArg (List.cons slash)
                · exact congrArg (List.cons slash)
          · refine (ih (len + 1) hn (hlit.tail hslash) hrest).imp ?_ ?_
            · exact congrArg (List.cons c)
            · exact congrArg (List.cons c)

/-- The trailing slash is cut off. -/
theorem LevelWalk.shardKey_eq (h : LevelWalk parent hashEnd walk) {filter topic : CStr}
    (hlit : LiteralLevels P2P_SHARD_KEY_LEVELS filter) (hmatch : walk filter topic = true) :
    shardKeyFromStr filter = shardKeyFromStr topic := by
  unfold shardKeyFromStr
  rcases h.shardKeyScan_eq 0 (Nat.zero_add _).symm hlit hmatch with heq | heq
  · rw [heq]
  · rw [heq, List.rdropWhile_concat_pos _ _ _ (by simp)]

/-- A subscription to a filter and a publish to a topic that it matches go to the same shard
owner, when the filter's wildcards come after the levels of the key. -/
theorem shard_of_matching_filter {filter topic : CStr}
    (hlit : LiteralLevels P2P_SHARD_KEY_LEVELS filter) (hmatch : topicMatch filter topic = true) :
    shardKeyFromStr filter = shardKeyFromStr topic ∧
      ∀ {cfg : Config} (st : P2pState cfg),
        st.shardOwnerForFilter filter = st.shardOwnerForTopic topic := by
  have hwalk : matchFrom true filter topic = true := by
    unfold topicMatch at hmatch
    split_ifs at hmatch
    exact hmatch
  have hkey := (matchFrom_levelWalk true).shardKey_eq hlit hwalk
  refine ⟨hkey, fun st ↦ ?_⟩
  rw [P2pState.shardOwnerForFilter, P2pState.shardOwnerForTopic, hkey]

/-- The filter `a//#` and the topic `a/`, whose key is `a`. -/
theorem shard_of_parent_level :
    shardKeyFromStr [97, slash, slash, hash] = shardKeyFromStr [97, slash] ∧
      ∀ {cfg : Config} (st : P2pState cfg),
        st.shardOwnerForFilter [97, slash, slash, hash] = st.shardOwnerForTopic [97, slash] :=
  shard_of_matching_filter (by decide) (by decide)

end MqttBroker
