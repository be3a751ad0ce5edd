import MqttBroker.Lib.ExchangeSort
import MqttBroker.Mesh.Election

/-!
# Who is a router

Brokers do not agree on their routers by messages: each ranks the nodes of its own
table by score, with ties broken by the id, and is a router if it is among the
first ones.  Here is what this comes to for brokers that know the same nodes with
the same scores, in whatever slots.
-/

namespace MqttBroker

open ExchangeSort

variable {cfg : Config}

/-! ## The order of the nodes -/

/-- A node of a table, with the score it is ranked by. -/
abbrev RankEntry := NodeId × ℤ

/-- A higher score first, the smaller id on ties. -/
def RankEntry.Precedes (a b : RankEntry) : Prop := b.2 < a.2 ∨ a.2 = b.2 ∧ a.1.before b.1

instance (a b : RankEntry) : Decidable (a.Precedes b) := inferInstanceAs (Decidable (_ ∨ _))

/-- The order as a lexicographic one. -/
def RankEntry.key (e : RankEntry) : ℤᵒᵈ ×ₗ List ℕ := toLex (OrderDual.toDual e.2, e.1.bytes)

theorem NodeId.bytes_injective : Function.Injective NodeId.bytes := fun _ _ h ↦
  funext fun i ↦ UInt8.toNat_inj.mp (congrFun (List.ofFn_injective h) i)

theorem NodeId.before_iff {a b : NodeId} : a.before b = true ↔ a.bytes < b.bytes := by
  simp [before]

theorem RankEntry.precedes_iff {a b : RankEntry} : a.Precedes b ↔ a.key < b.key := by
  rw [Precedes, key, key, Prod.Lex.toLex_lt_toLex, NodeId.before_iff]
  rfl

theorem RankEntry.precedes_asymm (a b : RankEntry) (h : a.Precedes b) : ¬ b.Precedes a := by
  rw [precedes_iff] at h ⊢
  exact lt_asymm h

namespace P2pPeerScore

def entry (p : P2pPeerScore) : RankEntry := (p.nodeId, p.score)

theorem scoreBefore_iff {a b : P2pPeerScore} :
    scoreBefore a b = true ↔ a.entry.Precedes b.entry := by
  unfold scoreBefore RankEntry.Precedes entry
  split_ifs with h
  · simp [h]
  · have heq : a.score = b.score := not_not.mp h
    simp [heq]

theorem follows : Follows (fun a b : P2pPeerScore ↦ !scoreBefore a b) fun p ↦ p.entry.key where
  of_swap {a b} h := by
    rw [Bool.not_eq_true', ← Bool.not_eq_true, scoreBefore_iff, RankEntry.precedes_iff] at h
    exact not_lt.mp h
  of_keep {a b} h := by
    rw [Bool.not_eq_true', Bool.not_eq_false, scoreBefore_iff, RankEntry.precedes_iff] at h
    exact h.le

end P2pPeerScore

theorem sweep_eq (cur : P2pPeerScore) (ps : List P2pPeerScore) :
    MqttBroker.sweep cur ps = ExchangeSort.sweep (fun a b ↦ !scoreBefore a b) cur ps := by
  induction ps generalizing cur with
  | nil => rfl
  | cons p ps ih => rw [MqttBroker.sweep, ExchangeSort.sweep, ih p, ih cur]

theorem exchangeSort_eq (n : ℕ) (ps : List P2pPeerScore) :
    exchangeSort n ps = ExchangeSort.sort (fun a b ↦ !scoreBefore a b) n ps := by
  induction n generalizing ps with
  | zero => rfl
  | succ n ih =>
      cases ps with
      | nil => rfl
      | cons p ps =>
          rw [exchangeSort, ExchangeSort.sort, sweep_eq]
          exact congrArg _ (ih _)

/-! ## How many routers -/

theorem bestCandidate_mem (reward : ℕ → ℤ) {count : ℕ} (h : 0 < count) :
    1 ≤ bestCandidate reward count ∧ bestCandidate reward count ≤ count := by
  unfold bestCandidate
  generalize hfold : (List.range count).foldl _ none = best
  have hall : ∀ b ∈ best, 1 ≤ b.2 ∧ b.2 ≤ count := by
    rw [← hfold]
    refine List.foldlRecOn (motive := fun best : Option (ℤ × ℕ) ↦
      ∀ b ∈ best, 1 ≤ b.2 ∧ b.2 ≤ count) _ _ (by simp) fun best hbest c hc b hb ↦ ?_
    have hc : c < count := List.mem_range.mp hc
    rcases best with - | ⟨r, d⟩
    · cases hb
      exact ⟨Nat.le_add_left _ _, hc⟩
    · dsimp only at hb
      split_ifs at hb
      · cases hb
        exact ⟨Nat.le_add_left _ _, hc⟩
      · exact hbest b hb
  cases best with
  | none => exact ⟨le_rfl, h⟩
  | some b => exact hall b rfl

/-- Whatever the load, there is a router, and there are no more than nodes. -/
theorem routerTargetCount_mem (env : ElectionEnv) (rate : ℕ) {n : ℕ} (h : 0 < n) :
    1 ≤ routerTargetCount env rate n ∧ routerTargetCount env rate n ≤ n := by
  unfold routerTargetCount
  split_ifs with hone hfixed
  · exact ⟨h, le_rfl⟩
  · exact ⟨le_min hfixed h, min_le_right _ _⟩
  · dsimp only
    split_ifs
    · exact ⟨h, le_rfl⟩
    · exact bestCandidate_mem _ h

/-! ## Tables -/

namespace P2pState

variable {st : P2pState cfg} {env : ElectionEnv}

/-- Slot 0 is the node itself, and no two slots in use have the same id. -/
structure IdsApart (st : P2pState cfg) : Prop where
  self_use : (st.peers 0).inUse = true
  self_id : (st.peers 0).nodeId = st.selfId
  apart : ∀ i j, (st.peers i).inUse = true → (st.peers j).inUse = true →
    (st.peers i).nodeId = (st.peers j).nodeId → i = j

theorem IdsApart.nodesInUse_nodup (h : st.IdsApart) :
    (st.nodesInUse.map P2pPeerScore.nodeId).Nodup := by
  unfold nodesInUse
  rw [List.filter_map, List.map_map]
  refine List.Nodup.map_on (fun i hi j hj hij ↦ ?_) ((List.nodup_finRange _).filter _)
  exact h.apart i j (List.mem_filter.mp hi).2 (List.mem_filter.mp hj).2 hij

theorem flushPublishWindow_selfId (now : ℤ) : (st.flushPublishWindow now).selfId = st.selfId := by
  unfold flushPublishWindow
  split_ifs <;> rfl

theorem flushPublishWindow_peers (now : ℤ) : (st.flushPublishWindow now).peers = st.peers := by
  unfold flushPublishWindow
  split_ifs <;> rfl

theorem flushPublishWindow_apart (h : st.IdsApart) (now : ℤ) :
    (st.flushPublishWindow now).IdsApart := by
  constructor
  · rw [flushPublishWindow_peers]
    exact h.self_use
  · rw [flushPublishWindow_peers, flushPublishWindow_selfId]
    exact h.self_id
  · rw [flushPublishWindow_peers]
    exact h.apart

@[simp] theorem refreshed_selfId : (st.refreshed env).selfId = st.selfId :=
  flushPublishWindow_selfId env.now

/-- A table in which every slot in use has the id it had keeps the ids apart. -/
theorem IdsApart.mono {st' : P2pState cfg} (h : st.IdsApart) (hself : st'.selfId = st.selfId)
    (hzero : (st'.peers 0).inUse = true)
    (hkeep : ∀ i, (st'.peers i).inUse = true → (st.peers i).inUse = true ∧
      (st'.peers i).nodeId = (st.peers i).nodeId) : st'.IdsApart := by
  refine ⟨hzero, ?_, fun i j hi hj hij ↦ ?_⟩
  · rw [(hkeep 0 hzero).2, hself]
    exact h.self_id
  · apply h.apart i j (hkeep i hi).1 (hkeep j hj).1
    rw [← (hkeep i hi).2, ← (hkeep j hj).2]
    exact hij

theorem refreshed_peers_zero : ((st.refreshed env).peers 0).inUse = (st.peers 0).inUse ∧
    ((st.refreshed env).peers 0).nodeId = (st.peers 0).nodeId := by
  simp only [refreshed, localScore, Function.update_self, flushPublishWindow_peers, expireOldPeers,
    ne_eq, not_true, false_and, if_false, and_self]

theorem refreshed_peers_ne {i : Fin (cfg.peerMax + 1)} (h : i ≠ 0) :
    (st.refreshed env).peers i = (st.expireOldPeers env.now).peers i := by
  simp only [refreshed, localScore, Function.update_of_ne h, flushPublishWindow_peers]

theorem refreshed_apart (h : st.IdsApart) : (st.refreshed env).IdsApart := by
  refine h.mono refreshed_selfId ?_ fun i hi ↦ ?_
  · rw [refreshed_peers_zero.1]
    exact h.self_use
  · by_cases hzero : i = 0
    · subst hzero
      exact ⟨h.self_use, refreshed_peers_zero.2⟩
    · rw [refreshed_peers_ne hzero] at hi ⊢
      unfold expireOldPeers at hi ⊢
      dsimp only at hi ⊢
      split_ifs at hi ⊢
      exact ⟨hi, rfl⟩

theorem recomputeRole_apart (h : st.IdsApart) : (st.recomputeRole env).2.IdsApart := by
  have hfresh : (st.refreshed env).IdsApart := refreshed_apart h
  refine hfresh.mono rfl ?_ fun i hi ↦ ?_
  · simp only [recomputeRole, Function.update_self]
    exact hfresh.self_use
  · by_cases hzero : i = 0
    · subst hzero
      simp only [recomputeRole, Function.update_self]
      exact ⟨hfresh.self_use, trivial⟩
    · simp only [recomputeRole, Function.update_of_ne hzero] at hi ⊢
      exact ⟨hi, trivial⟩

theorem mem_peerSlots {i : Fin (cfg.peerMax + 1)} : i ∈ peerSlots cfg ↔ i ≠ 0 := by
  unfold peerSlots
  rw [List.finRange_succ, List.drop_one, List.tail_cons, List.mem_map]
  constructor
  · rintro ⟨j, -, rfl⟩
    exact Fin.succ_ne_zero j
  · intro h
    exact ⟨i.pred h, List.mem_finRange _, Fin.succ_pred i h⟩

/-- The slot is the one with the id, or a free one if no slot has it. -/
theorem updateSlot_spec {id : NodeId} {i : Fin (cfg.peerMax + 1)} (h : st.updateSlot id = some i) :
    i ≠ 0 ∧ ∀ j ≠ 0, j ≠ i → (st.peers j).inUse = true → (st.peers j).nodeId = id →
      (st.peers i).inUse = true ∧ (st.peers i).nodeId = id := by
  unfold updateSlot at h
  rcases Option.or_eq_some_iff.mp h with hfound | ⟨hnone, hfree⟩
  · have hspec := List.find?_some hfound
    refine ⟨mem_peerSlots.mp (List.mem_of_find?_eq_some hfound), fun j _ _ _ _ ↦ ?_⟩
    simpa using hspec
  · refine ⟨mem_peerSlots.mp (List.mem_of_find?_eq_some hfree), fun j hj _ huse hid ↦ ?_⟩
    have hall := List.find?_eq_none.mp hnone j (mem_peerSlots.mpr hj)
    simp [huse, hid] at hall

theorem update_apart (h : st.IdsApart) {p : P2pPeerScore} {i : Fin (cfg.peerMax + 1)}
    (hself : p.nodeId ≠ st.selfId) (hslot : st.updateSlot p.nodeId = some i) :
    IdsApart { st with peers := Function.update st.peers i p } := by
  obtain ⟨hne, hspec⟩ := updateSlot_spec hslot
  -- another slot with the id would have been the one found
  have hother : ∀ j ≠ i, (st.peers j).inUse = true → (st.peers j).nodeId ≠ p.nodeId := by
    intro j hj huse hid
    by_cases hzero : j = 0
    · subst hzero
      exact hself (hid.symm.trans h.self_id)
    · obtain ⟨hiuse, hiid⟩ := hspec j hzero hj huse hid
      exact hj (h.apart j i huse hiuse (hid.trans hiid.symm))
  refine ⟨?_, ?_, fun j k hj hk hjk ↦ ?_⟩
  · dsimp only
    rw [Function.update_of_ne hne.symm]
    exact h.self_use
  · dsimp only
    rw [Function.update_of_ne hne.symm]
    exact h.self_id
  · dsimp only at hj hk hjk
    by_cases hji : j = i <;> by_cases hki : k = i
    · rw [hji, hki]
    · rw [hji, Function.update_self, Function.update_of_ne hki] at hjk
      rw [Function.update_of_ne hki] at hk
      exact absurd hjk.symm (hother k hki hk)
    · rw [hki, Function.update_self, Function.update_of_ne hji] at hjk
      rw [Function.update_of_ne hji] at hj
      exact absurd hjk (hother j hji hj)
    · rw [Function.update_of_ne hji] at hj hjk
      rw [Function.update_of_ne hki] at hk hjk
      exact h.apart j k hj hk hjk

end P2pState

/-! ## Brokers -/

namespace P2pState

/-- The state in which `p2p_election_init` calls `recompute_role_locked`. -/
def start (cfg : Config) (nodeId : NodeId) : P2pState cfg :=
  let zeroed : P2pPeerScore := ⟨fun _ ↦ 0, 0, 0, 0, 0, 0, 0, false⟩
  let self := { zeroed with
    nodeId := nodeId
    mqttPort := 1883
    p2pPort := 4884
    inUse := true }
  ⟨nodeId, Function.update (fun _ ↦ zeroed) 0 self, .router, 0, 0, 0, 0⟩

/-- The peer that `p2p_election_update_peer` writes. -/
def announced (ann : P2pAnnounce) (addr : UInt32) (now : ℤ) : P2pPeerScore :=
  ⟨ann.nodeId, addr, ann.mqttPort, ann.p2pPort, ann.score, ann.role, now, true⟩

/-- The states of a broker between the calls of the module. -/
inductive Running : P2pState cfg → Prop where
  | init (nodeId : NodeId) (env : ElectionEnv) : Running (P2pState.init cfg nodeId env)
  | call {st : P2pState cfg} (h : Running st) (c : ElectionCall) : Running (st.call c).1

/-- The states in which `recompute_role_locked` is called. -/
inductive Recomputes : P2pState cfg → Prop where
  | init (nodeId : NodeId) : Recomputes (start cfg nodeId)
  /-- `p2p_election_update_self` and `p2p_election_build_announce` -/
  | idle {st : P2pState cfg} (h : Running st) : Recomputes st
  | updatePeer {st : P2pState cfg} (h : Running st) {ann : P2pAnnounce} (addr : UInt32) (now : ℤ)
      {i : Fin (cfg.peerMax + 1)} (hself : ann.nodeId ≠ st.selfId)
      (hslot : st.updateSlot ann.nodeId = some i) :
      Recomputes { st with peers := Function.update st.peers i (announced ann addr now) }

variable {st : P2pState cfg}

theorem start_apart (nodeId : NodeId) : (start cfg nodeId).IdsApart := by
  refine ⟨rfl, rfl, fun i j hi hj _ ↦ ?_⟩
  have hzero : ∀ k, ((start cfg nodeId).peers k).inUse = true → k = 0 := by
    intro k hk
    by_contra hne
    simp only [start, Function.update_of_ne hne] at hk
    cases hk
  rw [hzero i hi, hzero j hj]

theorem Running.apart (h : Running st) : st.IdsApart := by
  induction h with
  | init nodeId env => exact recomputeRole_apart (start_apart nodeId)
  | @call st _ c ih =>
      cases c with
      | updateSelf env => exact recomputeRole_apart ih
      | buildAnnounce env => exact recomputeRole_apart ih
      | recordPublish now =>
          have hflush := flushPublishWindow_apart ih now
          exact ⟨hflush.self_use, hflush.self_id, hflush.apart⟩
      | updatePeer ann addr env =>
          by_cases hself : ann.nodeId = st.selfId
          · simpa only [P2pState.call, hself, if_true] using ih
          · cases hslot : st.updateSlot ann.nodeId with
            | none => simpa only [P2pState.call, hself, if_false, hslot] using ih
            | some i =>
                simp only [P2pState.call, hself, if_false, hslot]
                exact recomputeRole_apart
                  (update_apart ih (p := announced ann addr env.now) hself hslot)

theorem Recomputes.apart (h : Recomputes st) : st.IdsApart := by
  cases h with
  | init nodeId => exact start_apart nodeId
  | idle h => exact h.apart
  | updatePeer h addr now hself hslot =>
      exact update_apart h.apart (p := announced _ addr now) hself hslot

end P2pState

/-- A broker at a call of `recompute_role_locked`, built without
`CONFIG_MQTT_P2P_STATIC_SEEDS_ONLY`. -/
structure Elector where
  cfg : Config
  st : P2pState cfg
  env : ElectionEnv
  recomputes : st.Recomputes
  scored : env.staticSeedsOnly = false

namespace Elector

variable (b : Elector)

/-- The table that is ranked. -/
def nodes : List P2pPeerScore := (b.st.refreshed b.env).nodesInUse

def sorted : List P2pPeerScore := exchangeSort b.nodes.length b.nodes

/-- The entries of the table, in no order. -/
def entries : Finset RankEntry := (b.nodes.map P2pPeerScore.entry).toFinset

/-- The entry of the broker itself. -/
def own : RankEntry := ((b.st.refreshed b.env).peers 0).entry

/-- `router_count` -/
def count : ℕ := routerTargetCount b.env (b.st.refreshed b.env).publishRate b.sorted.length

/-- The nodes that the broker takes for routers. -/
def routers : Finset NodeId := ((b.sorted.take b.count).map P2pPeerScore.nodeId).toFinset

/-- The role after the call. -/
def role : P2pRole := (b.st.recomputeRole b.env).2.role

theorem fresh_apart : (b.st.refreshed b.env).IdsApart :=
  P2pState.refreshed_apart b.recomputes.apart

theorem own_fst : b.own.1 = b.st.selfId :=
  b.fresh_apart.self_id.trans P2pState.refreshed_selfId

theorem self_mem_nodes : (b.st.refreshed b.env).peers 0 ∈ b.nodes :=
  List.mem_filter.mpr ⟨List.mem_map.mpr ⟨0, List.mem_finRange 0, rfl⟩, b.fresh_apart.self_use⟩

theorem nodes_ids_nodup : (b.nodes.map P2pPeerScore.nodeId).Nodup := b.fresh_apart.nodesInUse_nodup

theorem sorted_perm : b.sorted.Perm b.nodes := by
  rw [sorted, exchangeSort_eq]
  exact sort_perm _ _ _

theorem sorted_ids_nodup : (b.sorted.map P2pPeerScore.nodeId).Nodup :=
  (b.sorted_perm.map _).nodup_iff.mpr b.nodes_ids_nodup

theorem entries_nodup : (b.nodes.map P2pPeerScore.entry).Nodup := by
  refine List.Nodup.of_map Prod.fst ?_
  rw [List.map_map]
  exact b.nodes_ids_nodup

theorem entries_card : b.entries.card = b.sorted.length := by
  rw [entries, List.toFinset_card_of_nodup b.entries_nodup, List.length_map,
    b.sorted_perm.length_eq]

theorem count_mem : 1 ≤ b.count ∧ b.count ≤ b.entries.card := by
  rw [entries_card]
  refine routerTargetCount_mem _ _ ?_
  rw [b.sorted_perm.length_eq]
  exact List.length_pos_of_mem b.self_mem_nodes

end Elector

/-! ## Agreement -/

theorem RankEntry.key_injective : Function.Injective RankEntry.key := by
  intro a b h
  have hpair : (OrderDual.toDual a.2, a.1.bytes) = (OrderDual.toDual b.2, b.1.bytes) :=
    toLex.injective h
  exact Prod.ext (NodeId.bytes_injective (congrArg Prod.snd hpair)) (congrArg Prod.fst hpair)

namespace Elector

variable {b b' : Elector}

theorem role_eq_router_iff : b.role = .router ↔ b.st.selfId ∈ b.routers := by
  have hrole : b.role = if (b.sorted.take b.count).any fun p ↦ p.nodeId = b.st.selfId then
      .router else .leaf := by
    simp only [role, P2pState.recomputeRole, P2pState.elected, b.scored, Bool.false_eq_true,
      if_false, P2pState.refreshed_selfId]
    rfl
  rw [hrole]
  simp only [routers, List.mem_toFinset, List.mem_map, List.any_eq_true, decide_eq_true_eq]
  split_ifs with h <;> simp [h]

/-- The nodes ahead of the broker are counted in its table. -/
theorem card_precedes :
    (b.entries.filter fun e ↦ e.Precedes b.own).card =
      b.sorted.countP fun p ↦ p.entry.Precedes b.own := by
  have hfilter : b.entries.filter (fun e ↦ e.Precedes b.own) =
      ((b.nodes.map P2pPeerScore.entry).filter fun e ↦ e.Precedes b.own).toFinset := by
    ext e
    simp [entries]
  rw [hfilter, List.toFinset_card_of_nodup (b.entries_nodup.filter _),
    ← List.countP_eq_length_filter, List.countP_map, b.sorted_perm.countP_eq]
  rfl

theorem sorted_strict : b.sorted.Pairwise fun p q ↦ p.entry.Precedes q.entry := by
  have hkeys : (b.nodes.map fun p ↦ p.entry.key).Nodup := by
    have hnodup := b.entries_nodup.map RankEntry.key_injective
    rwa [List.map_map] at hnodup
  have hstrict := P2pPeerScore.follows.sort_strict hkeys
  rw [← exchangeSort_eq] at hstrict
  exact hstrict.imp fun h ↦ RankEntry.precedes_iff.mpr h

theorem self_mem_routers_iff :
    b.st.selfId ∈ b.routers ↔ (b.entries.filter fun e ↦ e.Precedes b.own).card < b.count := by
  have hself := b.sorted_perm.mem_iff.mpr b.self_mem_nodes
  have hid : ((b.st.refreshed b.env).peers 0).nodeId = b.st.selfId := b.own_fst
  have htake := mem_take_iff (r := fun p q ↦ p.entry.Precedes q.entry)
    (fun p q ↦ RankEntry.precedes_asymm _ _) sorted_strict hself b.count
  rw [card_precedes]
  refine Iff.trans ⟨fun h ↦ ?_, fun h ↦ ?_⟩ htake
  · obtain ⟨p, hp, hpid⟩ := List.mem_map.mp (List.mem_toFinset.mp h)
    -- no other entry has the broker's id
    have heq := List.inj_on_of_nodup_map b.sorted_ids_nodup (List.mem_of_mem_take hp) hself
      (hpid.trans hid.symm)
    rwa [← heq]
  · exact List.mem_toFinset.mpr (List.mem_map.mpr ⟨_, h, hid⟩)

theorem routers_card : b.routers.card = min b.count b.entries.card := by
  have hnodup : ((b.sorted.take b.count).map P2pPeerScore.nodeId).Nodup :=
    b.sorted_ids_nodup.sublist ((List.take_sublist _ _).map _)
  rw [routers, List.toFinset_card_of_nodup hnodup, List.length_map, List.length_take, entries_card]

/-- Brokers with the same entries rank them alike. -/
theorem sorted_entries (h : b.entries = b'.entries) :
    b.sorted.map P2pPeerScore.entry = b'.sorted.map P2pPeerScore.entry := by
  have hperm : (b.nodes.map P2pPeerScore.entry).Perm (b'.nodes.map P2pPeerScore.entry) :=
    List.perm_of_nodup_nodup_toFinset_eq b.entries_nodup b'.entries_nodup h
  have hkeys := hperm.map RankEntry.key
  rw [List.map_map, List.map_map] at hkeys
  have hsorted := P2pPeerScore.follows.sort_keys P2pPeerScore.follows hkeys
  rw [← exchangeSort_eq, ← exchangeSort_eq] at hsorted
  apply List.map_injective_iff.mpr RankEntry.key_injective
  rw [List.map_map, List.map_map]
  exact hsorted

theorem routers_eq (h : b.entries = b'.entries) (hcount : b.count = b'.count) :
    b.routers = b'.routers := by
  have hids : ∀ c : Elector, (c.sorted.take c.count).map P2pPeerScore.nodeId =
      ((c.sorted.map P2pPeerScore.entry).take c.count).map Prod.fst := by
    intro c
    rw [← List.map_take, List.map_map]
    rfl
  rw [routers, routers, hids, hids, sorted_entries h, hcount]

end Elector

/-- Brokers that know the same nodes with the same scores, in any slots: each is a
router if and only if fewer nodes come before it than it wants routers.  So the
first one is a router whatever the brokers make of their load, and brokers that
want the same number take the same nodes for routers, as many as they want. -/
theorem electors_agree {ι : Type*} (b : ι → Elector) (E : Finset RankEntry)
    (hE : ∀ n, (b n).entries = E) (hid : Function.Injective fun n ↦ (b n).st.selfId) :
    (∀ n, (b n).role = .router ↔
      (E.filter fun e ↦ e.Precedes (b n).own).card < (b n).count) ∧
    (∀ n, (∀ e ∈ E, ¬ e.Precedes (b n).own) → (b n).role = .router) ∧
    (∀ n m, (b n).count = (b m).count → (b n).routers = (b m).routers) ∧
    (∀ n, (b n).routers.card = min (b n).count E.card ∧
      ((b n).role = .router ↔ (b n).st.selfId ∈ (b n).routers)) ∧
    ∀ k, (∀ n, (b n).count = k) → (∀ e ∈ E, ∃ n, (b n).st.selfId = e.1) →
      {n | (b n).role = .router}.ncard = min k E.card := by
  have hrole : ∀ n, (b n).role = .router ↔
      (E.filter fun e ↦ e.Precedes (b n).own).card < (b n).count := fun n ↦ by
    rw [← hE n, Elector.role_eq_router_iff, Elector.self_mem_routers_iff]
  have hsame : ∀ n m, (b n).count = (b m).count → (b n).routers = (b m).routers := fun n m h ↦
    Elector.routers_eq ((hE n).trans (hE m).symm) h
  refine ⟨hrole, fun n hfirst ↦ ?_, hsame, fun n ↦ ?_, fun k hk hall ↦ ?_⟩
  · rw [hrole, Finset.filter_false_of_mem hfirst, Finset.card_empty]
    exact (b n).count_mem.1
  · rw [← hE n]
    exact ⟨Elector.routers_card, Elector.role_eq_router_iff⟩
  · rcases isEmpty_or_nonempty ι with hempty | ⟨⟨m⟩⟩
    · have hnone : E = ∅ := Finset.eq_empty_of_forall_notMem fun e he ↦ (hall e he).elim
        fun n _ ↦ hempty.elim n
      rw [hnone, Finset.card_empty, Nat.min_zero, Set.ncard_eq_zero (Set.toFinite _)]
      exact Set.eq_empty_of_isEmpty _
    · -- the ids of the routers are the nodes that the broker `m` takes for them
      have himage : (fun n ↦ (b n).st.selfId) '' {n | (b n).role = .router} = (b m).routers := by
        ext id
        constructor
        · rintro ⟨n, hn, rfl⟩
          rw [hsame m n ((hk m).trans (hk n).symm)]
          exact Elector.role_eq_router_iff.mp hn
        · intro hmem
          obtain ⟨p, hp, rfl⟩ := List.mem_map.mp (List.mem_toFinset.mp hmem)
          have hentry : p.entry ∈ E := hE m ▸ List.mem_toFinset.mpr
            (List.mem_map_of_mem ((b m).sorted_perm.mem_iff.mp (List.mem_of_mem_take hp)))
          obtain ⟨n, hn⟩ := hall _ hentry
          refine ⟨n, Elector.role_eq_router_iff.mpr ?_, hn⟩
          rw [hsame n m ((hk n).trans (hk m).symm), hn]
          exact hmem
      rw [← Set.ncard_image_of_injective _ hid, himage, Set.ncard_coe_finset,
        Elector.routers_card, hk m, hE m]

namespace Elector

/-- A build with `P2P_ROUTER_COUNT` 1 and room for four clients. -/
def oneRouterAt (now : ℤ) : ElectionEnv := ⟨false, 1, now, 4, ⟨0, 0, 0, 0⟩⟩

/-- A broker that has heard of one other, with the score it has itself. -/
def tied (id other : UInt8) : Elector where
  cfg := Config.posix
  st := ((P2pState.init Config.posix (fun _ ↦ id) (oneRouterAt 0)).call
    (.updatePeer ⟨fun _ ↦ other, 1883, 4884, 35, 0⟩ 0 (oneRouterAt 1000))).1
  env := oneRouterAt 2000
  recomputes := .idle ((P2pState.Running.init _ _).call _)
  scored := rfl

end Elector

/-- Two brokers with equal scores: one of them is a router. -/
theorem tied_electors_agree :
    {n : Fin 2 | (![Elector.tied 1 2, Elector.tied 2 1] n).role = .router}.ncard = 1 :=
  (electors_agree ![Elector.tied 1 2, Elector.tied 2 1] {(fun _ ↦ 1, 35), (fun _ ↦ 2, 35)}
    (by decide +kernel) (by decide +kernel)).2.2.2.2 1 (by decide +kernel) (by decide +kernel)

end MqttBroker
