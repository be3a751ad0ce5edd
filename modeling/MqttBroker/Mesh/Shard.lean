import MqttBroker.Mesh.Ranking

/-!
# Shard owners

`p2p_shard.c` without its caches: the first levels of a topic or of a filter are
hashed, and the hash picks one of the routers of the table, in the order of
their ids.
-/

namespace MqttBroker

open ExchangeSort

variable {cfg : Config}

/-! ## The code -/

/-- The default of a macro that no build file sets. -/
def P2P_SHARD_KEY_LEVELS : ℕ := 2

/-- The loop in `shard_key_from_str`, after `len` bytes with so many slashes. -/
def shardKeyScan (len slashes : ℕ) : CStr → CStr
  | [] => []
  | c :: cs =>
      if MQTT_TOPIC_MAX - 1 ≤ len then []
      else if c = Ch.plus ∨ c = Ch.hash then []
      else if c = Ch.slash then
        if P2P_SHARD_KEY_LEVELS ≤ slashes + 1 then [c]
        else c :: shardKeyScan (len + 1) (slashes + 1) cs
      else c :: shardKeyScan (len + 1) slashes cs

/-- `shard_key_from_str` -/
def shardKeyFromStr (src : CStr) : CStr := (shardKeyScan 0 0 src).rdropWhile fun c ↦ c = Ch.slash

/-- `fnv1a32_update` -/
def fnv1a32Update (hash : UInt32) (data : Bytes) : UInt32 := hashUpdate hash data

/-- The routers in `shard_owner_id_from_key` after their sort. -/
def sortedById (routers : List P2pPeerScore) : List P2pPeerScore :=
  ExchangeSort.sort (fun a b ↦ b.nodeId.before a.nodeId) routers.length routers

namespace P2pState

variable (st : P2pState cfg)

/-- The entries of `p2p_election_snapshot` that are routers. -/
def routers : List P2pPeerScore := st.nodesInUse.filter fun p ↦ p.role = P2pRole.router.toByte

/-- `shard_owner_id_from_key` when it finds nothing in the caches. -/
def shardOwnerIdFromKey (shardKey : CStr) : NodeId :=
  if shardKey = [] then st.selfId
  else if st.routers = [] then st.selfId
  else
    let hash := fnv1a32Update 2166136261 shardKey
    ((sortedById st.routers).map P2pPeerScore.nodeId).getD (hash.toNat % st.routers.length) st.selfId

/-- `p2p_shard_owner_for_topic` -/
def shardOwnerForTopic (topic : CStr) : NodeId := st.shardOwnerIdFromKey (shardKeyFromStr topic)

/-- `p2p_shard_owner_for_filter` -/
def shardOwnerForFilter (filter : CStr) : NodeId := st.shardOwnerIdFromKey (shardKeyFromStr filter)

/-- The ids of the routers, in no order. -/
def routerIds : Finset NodeId := (st.routers.map P2pPeerScore.nodeId).toFinset

end P2pState

/-! ## Keys -/

theorem shardKeyScan_length (len slashes : ℕ) (src : CStr) :
    (shardKeyScan len slashes src).length ≤ MQTT_TOPIC_MAX - 1 - len := by
  induction src generalizing len slashes with
  | nil => exact Nat.zero_le _
  | cons c cs ih =>
      rw [shardKeyScan]
      split_ifs with hfull hwild hslash hlast
      · exact Nat.zero_le _
      · exact Nat.zero_le _
      · rw [List.length_singleton]
        omega
      · have hrest := ih (len + 1) (slashes + 1)
        rw [List.length_cons]
        omega
      · have hrest := ih (len + 1) slashes
        rw [List.length_cons]
        omega

/-- A key fits in the buffers of the caches. -/
theorem shardKeyFromStr_length (src : CStr) :
    (shardKeyFromStr src).length ≤ MQTT_TOPIC_MAX - 1 :=
  (List.IsPrefix.length_le (List.rdropWhile_prefix _ _)).trans (shardKeyScan_length 0 0 src)

/-! ## One order for every table -/

theorem byId_follows : Follows (fun a b : P2pPeerScore ↦ b.nodeId.before a.nodeId)
    fun p ↦ p.nodeId.bytes where
  of_swap h := (NodeId.before_iff.mp h).le
  of_keep h := not_lt.mp fun hlt ↦ h (NodeId.before_iff.mpr hlt)

/-- The routers in their order depend on the ids only. -/
theorem sortedById_ids {ps qs : List P2pPeerScore}
    (h : (ps.map P2pPeerScore.nodeId).Perm (qs.map P2pPeerScore.nodeId)) :
    (sortedById ps).map P2pPeerScore.nodeId = (sortedById qs).map P2pPeerScore.nodeId := by
  have hbytes := h.map NodeId.bytes
  rw [List.map_map, List.map_map] at hbytes
  apply List.map_injective_iff.mpr NodeId.bytes_injective
  rw [List.map_map, List.map_map]
  exact byId_follows.sort_keys byId_follows hbytes

theorem sortedById_perm (ps : List P2pPeerScore) : (sortedById ps).Perm ps := sort_perm _ _ _

namespace P2pState

variable {st : P2pState cfg}

theorem IdsApart.routers_nodup (h : st.IdsApart) :
    (st.routers.map P2pPeerScore.nodeId).Nodup :=
  h.nodesInUse_nodup.sublist (List.filter_sublist.map _)

theorem routerIds_eq_empty : st.routerIds = ∅ ↔ st.routers = [] := by
  rw [routerIds, List.toFinset_eq_empty_iff, List.map_eq_nil_iff]

/-- The router that a hash picks from a list. -/
def picked (routers : List P2pPeerScore) (shardKey : CStr) : Option NodeId :=
  ((sortedById routers).map P2pPeerScore.nodeId)[
    (fnv1a32Update 2166136261 shardKey).toNat % routers.length]?

theorem picked_of_ne_nil {routers : List P2pPeerScore} (h : routers ≠ []) (shardKey : CStr) :
    ∃ owner ∈ (routers.map P2pPeerScore.nodeId).toFinset, picked routers shardKey = some owner := by
  have hlen : ((sortedById routers).map P2pPeerScore.nodeId).length = routers.length := by
    rw [List.length_map, (sortedById_perm routers).length_eq]
  have hlt := Nat.mod_lt (fnv1a32Update 2166136261 shardKey).toNat (List.length_pos_iff.mpr h)
  refine ⟨_, ?_, List.getElem?_eq_getElem (hlen ▸ hlt)⟩
  rw [List.mem_toFinset]
  exact ((sortedById_perm routers).map _).mem_iff.mp (List.getElem_mem _)

/-- Any two lists of the same routers give the same choice. -/
theorem picked_congr {ps qs : List P2pPeerScore} (hps : (ps.map P2pPeerScore.nodeId).Nodup)
    (hqs : (qs.map P2pPeerScore.nodeId).Nodup)
    (h : (ps.map P2pPeerScore.nodeId).toFinset = (qs.map P2pPeerScore.nodeId).toFinset)
    (shardKey : CStr) : picked ps shardKey = picked qs shardKey := by
  have hperm := List.perm_of_nodup_nodup_toFinset_eq hps hqs h
  have hlen : ps.length = qs.length := by simpa using hperm.length_eq
  rw [picked, picked, sortedById_ids hperm, hlen]

theorem shardOwnerIdFromKey_eq {shardKey : CStr} (hkey : shardKey ≠ []) :
    st.shardOwnerIdFromKey shardKey = (picked st.routers shardKey).getD st.selfId := by
  unfold shardOwnerIdFromKey
  rw [if_neg hkey]
  split_ifs with hnone
  · rw [hnone]
    rfl
  · exact List.getD_eq_getElem?_getD

theorem shardOwnerIdFromKey_of_empty (h : st.routerIds = ∅) (shardKey : CStr) :
    st.shardOwnerIdFromKey shardKey = st.selfId := by
  unfold shardOwnerIdFromKey
  rw [routerIds_eq_empty.mp h, if_pos rfl, ite_self]

theorem shardOwnerIdFromKey_mem (h : st.routerIds.Nonempty) {shardKey : CStr}
    (hkey : shardKey ≠ []) : st.shardOwnerIdFromKey shardKey ∈ st.routerIds := by
  have hne : st.routers ≠ [] := fun hnil ↦ h.ne_empty (routerIds_eq_empty.mpr hnil)
  obtain ⟨owner, hmem, hpicked⟩ := picked_of_ne_nil hne shardKey
  rw [shardOwnerIdFromKey_eq hkey, hpicked]
  exact hmem

end P2pState

section Owners

variable {cfg₁ cfg₂ : Config} {st₁ : P2pState cfg₁} {st₂ : P2pState cfg₂}

theorem shardOwnerIdFromKey_congr (h₁ : st₁.Running) (h₂ : st₂.Running)
    (hsame : st₁.routerIds = st₂.routerIds) (hne : st₁.routerIds.Nonempty) {shardKey : CStr}
    (hkey : shardKey ≠ []) : st₁.shardOwnerIdFromKey shardKey = st₂.shardOwnerIdFromKey shardKey := by
  have hrouters : st₁.routers ≠ [] := fun hnil ↦
    hne.ne_empty (P2pState.routerIds_eq_empty.mpr hnil)
  obtain ⟨owner, -, howner⟩ := P2pState.picked_of_ne_nil hrouters shardKey
  have hpicked := P2pState.picked_congr h₁.apart.routers_nodup h₂.apart.routers_nodup hsame shardKey
  rw [P2pState.shardOwnerIdFromKey_eq hkey, P2pState.shardOwnerIdFromKey_eq hkey, ← hpicked, howner]
  rfl

/-- Two brokers whose tables have the same routers find the same owner for every
topic and every filter with a key, and it is one of these routers.  Where the
tables have no router each broker takes itself for the owner. -/
theorem shard_owner_agrees (h₁ : st₁.Running) (h₂ : st₂.Running)
    (hsame : st₁.routerIds = st₂.routerIds) (s : CStr) (hkey : shardKeyFromStr s ≠ []) :
    (st₁.routerIds.Nonempty →
      st₁.shardOwnerForTopic s = st₂.shardOwnerForTopic s ∧
      st₁.shardOwnerForFilter s = st₂.shardOwnerForFilter s ∧
      st₁.shardOwnerForTopic s ∈ st₁.routerIds ∧ st₁.shardOwnerForFilter s ∈ st₁.routerIds) ∧
    (st₁.routerIds = ∅ →
      st₁.shardOwnerForTopic s = st₁.selfId ∧ st₂.shardOwnerForTopic s = st₂.selfId ∧
      st₁.shardOwnerForFilter s = st₁.selfId ∧ st₂.shardOwnerForFilter s = st₂.selfId) := by
  constructor
  · intro hne
    have hcongr := shardOwnerIdFromKey_congr h₁ h₂ hsame hne hkey
    have hmem := P2pState.shardOwnerIdFromKey_mem hne hkey
    exact ⟨hcongr, hcongr, hmem, hmem⟩
  · intro hempty
    have hself₁ := P2pState.shardOwnerIdFromKey_of_empty hempty (shardKeyFromStr s)
    have hself₂ := P2pState.shardOwnerIdFromKey_of_empty (hsame.symm.trans hempty)
      (shardKeyFromStr s)
    exact ⟨hself₁, hself₂, hself₁, hself₂⟩

end Owners

namespace P2pState

/-- A peer announces itself. -/
def hears (id role : UInt8) (score : ℤ) (env : ElectionEnv) : ElectionCall :=
  .updatePeer ⟨fun _ ↦ id, 1883, 4884, score, role⟩ 0 env

/-- A broker that hears of two routers. -/
def amongRouters (id peer peer' : UInt8) : P2pState Config.posix :=
  (((init Config.posix (fun _ ↦ id) (electionAt 0)).call (hears peer 1 20 (electionAt 1000))).1.call
    (hears peer' 1 60 (electionAt 2000))).1

/-- A broker that wants one router, and hears of a better node that is not one (yet). -/
def amongLeaves (id : UInt8) : P2pState Config.posix :=
  ((init Config.posix (fun _ ↦ id) (Elector.oneRouterAt 0)).call
    (hears 3 0 100 (Elector.oneRouterAt 1000))).1

end P2pState

/-- The topic `a/b/c`. -/
def deepTopic : CStr := [0x61, 0x2F, 0x62, 0x2F, 0x63]

theorem amongRouters_owner :
    (P2pState.amongRouters 1 3 2).shardOwnerForTopic deepTopic =
      (P2pState.amongRouters 3 1 2).shardOwnerForTopic deepTopic :=
  ((shard_owner_agrees (((P2pState.Running.init _ _).call _).call _)
    (((P2pState.Running.init _ _).call _).call _) (by decide +kernel) deepTopic
    (by decide +kernel)).1 (by decide +kernel)).1

/-- Two brokers that know of no router, and each is its own owner. -/
theorem amongLeaves_owners : ∃ st₁ st₂ : P2pState Config.posix, st₁.Running ∧ st₂.Running ∧
    st₁.routerIds = st₂.routerIds ∧ shardKeyFromStr deepTopic ≠ [] ∧
    st₁.shardOwnerForTopic deepTopic ≠ st₂.shardOwnerForTopic deepTopic ∧
    st₁.shardOwnerForTopic deepTopic ∉ st₁.routerIds :=
  ⟨P2pState.amongLeaves 1, P2pState.amongLeaves 2, (P2pState.Running.init _ _).call _,
    (P2pState.Running.init _ _).call _, by decide +kernel, by decide +kernel, by decide +kernel,
    by decide +kernel⟩

end MqttBroker
