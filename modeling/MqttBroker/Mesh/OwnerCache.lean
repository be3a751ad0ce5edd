import MqttBroker.Lib.Observer
import MqttBroker.Mesh.Shard

/-!
# The caches of the shard owners

`p2p_shard.c` with its caches: one for all threads and, except on Zephyr, one for
each thread.  An entry is found by the shard key and the signature of the
topology.  A lookup reads the signature, looks into both caches and takes a
snapshot of the peers in separate sections, and the election goes on in between.
-/

namespace MqttBroker

variable {cfg : Config} {κ : Type*} [DecidableEq κ]

/-! ## The code -/

/-- How `p2p_shard.c` was built. -/
structure ShardBuild where
  /-- `__ZEPHYR__` -/
  zephyr : Bool
  /-- `P2P_SHARD_OWNER_CACHE_SIZE` -/
  cacheSize : ℕ
  cacheSize_pos : 0 < cacheSize := by decide

/-- `shard_owner_cache_t` -/
structure ShardOwnerCache where
  inUse : Bool
  topologySig : UInt32
  shardKey : CStr
  ownerId : NodeId

namespace ShardOwnerCache

def zeroed : ShardOwnerCache := ⟨false, 0, [], fun _ ↦ 0⟩

/-- `shard_cache_match` -/
def shardCacheMatch (entry : ShardOwnerCache) (topologySig : UInt32) (shardKey : CStr) : Bool :=
  entry.inUse && entry.topologySig = topologySig && entry.shardKey = shardKey

/-- `shard_cache_write` -/
def shardCacheWrite (topologySig : UInt32) (shardKey : CStr) (ownerId : NodeId) :
    ShardOwnerCache :=
  ⟨true, topologySig, shardKey.take (MQTT_TOPIC_MAX - 1), ownerId⟩

end ShardOwnerCache

open ShardOwnerCache

/-- `shard_cache_key_hash` -/
def shardCacheKeyHash (topologySig : UInt32) (shardKey : CStr) : UInt32 :=
  fnv1a32Update (fnv1a32Update 2166136261 (intBytes topologySig.toNat)) shardKey

section OwnerCache

variable {b : ShardBuild}

/-- The slot that a hash falls on. -/
def ShardBuild.slot (b : ShardBuild) (hash : UInt32) : Fin b.cacheSize :=
  ⟨hash.toNat % b.cacheSize, Nat.mod_lt _ b.cacheSize_pos⟩

/-- The slots in the order in which the loops over the cache visit them. -/
def ShardBuild.probes (b : ShardBuild) (hash : UInt32) : List (Fin b.cacheSize) :=
  (List.range b.cacheSize).map fun i ↦ b.slot (hash + UInt32.ofNat i)

/-- The loop of `shard_cache_lookup`. -/
def shardCacheScan (cache : Fin b.cacheSize → ShardOwnerCache) (topologySig : UInt32)
    (shardKey : CStr) : List (Fin b.cacheSize) → Option NodeId
  | [] => none
  | i :: is =>
      if (cache i).shardCacheMatch topologySig shardKey then some (cache i).ownerId
      else if !(cache i).inUse then none
      else shardCacheScan cache topologySig shardKey is

/-- `shard_cache_lookup` -/
def shardCacheLookup (cache : Fin b.cacheSize → ShardOwnerCache) (topologySig : UInt32)
    (shardKey : CStr) : Option NodeId :=
  shardCacheScan cache topologySig shardKey (b.probes (shardCacheKeyHash topologySig shardKey))

/-- `shard_cache_store` -/
def shardCacheStore (cache : Fin b.cacheSize → ShardOwnerCache) (topologySig : UInt32)
    (shardKey : CStr) (ownerId : NodeId) : Fin b.cacheSize → ShardOwnerCache :=
  let hash := shardCacheKeyHash topologySig shardKey
  let slot := (b.probes hash).find? fun i ↦
    (cache i).shardCacheMatch topologySig shardKey || !(cache i).inUse
  Function.update cache (slot.getD (b.slot hash)) (shardCacheWrite topologySig shardKey ownerId)

end OwnerCache

/-- `thread_cache` with `thread_cache_pos`. -/
structure ThreadCache where
  entries : Fin 8 → ShardOwnerCache
  pos : Fin 8

namespace ThreadCache

def zeroed : ThreadCache := ⟨fun _ ↦ ShardOwnerCache.zeroed, 0⟩

/-- `thread_cache_lookup` -/
def threadCacheLookup (cache : ThreadCache) (topologySig : UInt32) (shardKey : CStr) :
    Option NodeId :=
  ((List.finRange 8).find? fun i ↦ (cache.entries i).shardCacheMatch topologySig shardKey).map
    fun i ↦ (cache.entries i).ownerId

/-- `thread_cache_store` -/
def threadCacheStore (cache : ThreadCache) (topologySig : UInt32) (shardKey : CStr)
    (ownerId : NodeId) : ThreadCache :=
  ⟨Function.update cache.entries cache.pos (shardCacheWrite topologySig shardKey ownerId),
    cache.pos + 1⟩

end ThreadCache

/-- Where a thread is in `shard_owner_id_from_key`. -/
inductive OwnerLookup where
  | idle
  /-- it has read the signature -/
  | signed (shardKey : CStr) (topologySig : UInt32)
  /-- its own cache does not have the owner -/
  | probed (shardKey : CStr) (topologySig : UInt32)
  /-- neither cache has the owner -/
  | missed (shardKey : CStr) (topologySig : UInt32)
  /-- it has taken the snapshot -/
  | computed (shardKey : CStr) (topologySig : UInt32) (ownerId : NodeId)
  /-- it has stored the owner for all threads -/
  | stored (shardKey : CStr) (topologySig : UInt32) (ownerId : NodeId)

structure ShardState (cfg : Config) (b : ShardBuild) (κ : Type*) where
  election : P2pState cfg
  ownerCache : Fin b.cacheSize → ShardOwnerCache
  threadCache : κ → ThreadCache
  lookup : κ → OwnerLookup

/-- What a lookup returns. -/
structure OwnerAnswer where
  shardKey : CStr
  owner : NodeId
  /-- found in one of the caches -/
  cached : Bool

inductive ShardEvent (κ : Type*) where
  /-- a call of the election -/
  | call (c : ElectionCall)
  /-- a thread calls `p2p_shard_owner_for_topic` or `p2p_shard_owner_for_filter` -/
  | begin (k : κ) (src : CStr)
  /-- a thread goes on with its lookup -/
  | resume (k : κ)

namespace ShardState

variable {b : ShardBuild} (s : ShardState cfg b κ)

def goto (k : κ) (l : OwnerLookup) : ShardState cfg b κ :=
  { s with lookup := Function.update s.lookup k l }

/-- `shard_owner_id_from_key` until it has read the signature. -/
def beginLookup (k : κ) (src : CStr) : Option (ShardState cfg b κ × Option OwnerAnswer) :=
  match s.lookup k with
  | .idle =>
      let shardKey := shardKeyFromStr src
      if shardKey = [] then some (s, some ⟨shardKey, s.election.selfId, false⟩)
      else some (s.goto k (.signed shardKey s.election.topologySig), none)
  | _ => none

/-- The next section of `shard_owner_id_from_key`. -/
def resumeLookup (k : κ) : Option (ShardState cfg b κ × Option OwnerAnswer) :=
  match s.lookup k with
  | .idle => none
  | .signed shardKey sig =>
      if b.zephyr then some (s.goto k (.probed shardKey sig), none)
      else
        match (s.threadCache k).threadCacheLookup sig shardKey with
        | some owner => some (s.goto k .idle, some ⟨shardKey, owner, true⟩)
        | none => some (s.goto k (.probed shardKey sig), none)
  | .probed shardKey sig =>
      match shardCacheLookup s.ownerCache sig shardKey with
      | some owner => some (s.goto k .idle, some ⟨shardKey, owner, true⟩)
      | none => some (s.goto k (.missed shardKey sig), none)
  | .missed shardKey sig =>
      if s.election.routers = [] then
        some (s.goto k .idle, some ⟨shardKey, s.election.selfId, false⟩)
      else
        let owner := s.election.shardOwnerIdFromKey shardKey
        some (s.goto k (.computed shardKey sig owner), none)
  | .computed shardKey sig owner =>
      let s := { s with ownerCache := shardCacheStore s.ownerCache sig shardKey owner }
      if b.zephyr then some (s.goto k .idle, some ⟨shardKey, owner, false⟩)
      else some (s.goto k (.stored shardKey sig owner), none)
  | .stored shardKey sig owner =>
      let cache := (s.threadCache k).threadCacheStore sig shardKey owner
      let s := { s with threadCache := Function.update s.threadCache k cache }
      some (s.goto k .idle, some ⟨shardKey, owner, false⟩)

/-- What an event leads to, and what a lookup returns in it. -/
def next : ShardEvent κ → Option (ShardState cfg b κ × Option OwnerAnswer)
  | .call c => some ({ s with election := (s.election.call c).1 }, none)
  | .begin k src => s.beginLookup k src
  | .resume k => s.resumeLookup k

end ShardState

/-! ## What the signatures stand for -/

namespace P2pState

variable (st : P2pState cfg) (env : ElectionEnv)

/-- The nodes whose ids `recompute_role_locked` hashes. -/
def hashedIds : Finset NodeId :=
  let nodes := (st.refreshed env).nodesInUse
  let hashed := if env.staticSeedsOnly then nodes
    else (exchangeSort nodes.length nodes).filter fun p ↦ p.role = P2pRole.router.toByte
  (hashed.map P2pPeerScore.nodeId).toFinset

/-- The call of `recompute_role_locked` in a call of the module. -/
def recomputed : ElectionCall → Option (P2pState cfg × ElectionEnv)
  | .updateSelf env => some (st, env)
  | .updatePeer ann addr env =>
      if ann.nodeId = st.selfId then none
      else (st.updateSlot ann.nodeId).map fun i ↦
        ({ st with peers := Function.update st.peers i (announced ann addr env.now) }, env)
  | .buildAnnounce env => some (st, env)
  | .recordPublish _ => none

end P2pState

/-- What is written down along a run. -/
structure ShardNotes (κ : Type*) where
  /-- The signatures with the nodes they were computed from, the last one first. -/
  topologies : List (UInt32 × Finset NodeId)
  /-- The routers of the table when each thread read the signature. -/
  read : κ → Finset NodeId
  /-- What the lookups have returned, with the owner computed from the table at that moment. -/
  answers : List (OwnerAnswer × NodeId)

namespace ShardNotes

/-- No two topologies of the run have the same signature. -/
def CollisionFree (n : ShardNotes κ) : Prop :=
  ∀ p ∈ n.topologies, ∀ q ∈ n.topologies, p.1 = q.1 → p.2 = q.2

-- over the list, not over all signatures and all sets of nodes
instance (n : ShardNotes κ) : Decidable n.CollisionFree :=
  decidable_of_iff ((n.topologies.all fun p ↦ n.topologies.all fun q ↦
    decide (p.1 = q.1 → p.2 = q.2)) = true) (by simp [CollisionFree, imp_iff_not_or])

/-- What the caches have returned is what the table says. -/
def Transparent (n : ShardNotes κ) : Prop :=
  ∀ a ∈ n.answers, a.1.cached = true → a.1.owner = a.2

instance (n : ShardNotes κ) : Decidable n.Transparent :=
  inferInstanceAs (Decidable (∀ a ∈ n.answers, _))

variable {b : ShardBuild}

def note (s : ShardState cfg b κ) (e : ShardEvent κ) (n : ShardNotes κ) : ShardNotes κ where
  topologies :=
    match e with
    | .call c =>
        match s.election.recomputed c with
        | some (st, env) => ((st.elected env).2, st.hashedIds env) :: n.topologies
        | none => n.topologies
    | _ => n.topologies
  read :=
    match e with
    | .begin k _ => Function.update n.read k s.election.routerIds
    | _ => n.read
  answers :=
    match s.next e with
    | some (_, some a) => (a, s.election.shardOwnerIdFromKey a.shardKey) :: n.answers
    | _ => n.answers

end ShardNotes

/-- The lookups of any threads beside the election of a broker. -/
def shardSystem (cfg : Config) (b : ShardBuild) (κ : Type*) [DecidableEq κ] :
    Observer.System (ShardState cfg b κ) (ShardEvent κ) (ShardNotes κ) where
  step s e := (s.next e).map Prod.fst
  note := ShardNotes.note

def ShardState.start (b : ShardBuild) (κ : Type*) (nodeId : NodeId) (env : ElectionEnv) :
    ShardState cfg b κ :=
  ⟨P2pState.init cfg nodeId env, fun _ ↦ zeroed, fun _ ↦ ThreadCache.zeroed, fun _ ↦ .idle⟩

def ShardNotes.start (cfg : Config) (κ : Type*) (nodeId : NodeId) (env : ElectionEnv) :
    ShardNotes κ :=
  let st := P2pState.start cfg nodeId
  ⟨[((st.elected env).2, st.hashedIds env)], fun _ ↦ ∅, []⟩

/-! ## When the caches are transparent -/

/-- The next section of a lookup finds the owner in a cache, or takes the snapshot. -/
def ShardState.settles {b : ShardBuild} (s : ShardState cfg b κ) (k : κ) : Bool :=
  match s.lookup k, s.resumeLookup k with
  | .missed _ _, _ => true
  | _, some (_, some a) => a.cached
  | _, _ => false

/-- A lookup reads the signature when it was computed from the routers of the
table, and these are still the routers when it finds the owner or takes the snapshot. -/
def LookupsCoherent {b : ShardBuild} (s : ShardState cfg b κ) (n : ShardNotes κ) :
    ShardEvent κ → Prop
  | .call _ => True
  | .begin _ src => shardKeyFromStr src = [] ∨
      n.topologies.head?.map Prod.snd = some s.election.routerIds
  | .resume k => s.settles k = true → s.election.routerIds = n.read k

instance {b : ShardBuild} (s : ShardState cfg b κ) (n : ShardNotes κ) :
    DecidablePred (LookupsCoherent s n)
  | .call _ => inferInstanceAs (Decidable True)
  | .begin _ _ => inferInstanceAs (Decidable (_ ∨ _))
  | .resume _ => inferInstanceAs (Decidable (_ → _))

/-- The hash picks this owner among the routers with these ids. -/
def Picks (ids : Finset NodeId) (shardKey : CStr) (owner : NodeId) : Prop :=
  ∃ routers : List P2pPeerScore, (routers.map P2pPeerScore.nodeId).Nodup ∧
    (routers.map P2pPeerScore.nodeId).toFinset = ids ∧
    P2pState.picked routers shardKey = some owner

theorem Picks.unique {ids : Finset NodeId} {shardKey : CStr} {owner owner' : NodeId}
    (h : Picks ids shardKey owner) (h' : Picks ids shardKey owner') : owner = owner' := by
  obtain ⟨ps, hps, rfl, howner⟩ := h
  obtain ⟨qs, hqs, hids, howner'⟩ := h'
  have hcongr := P2pState.picked_congr hps hqs hids.symm shardKey
  exact Option.some.inj (howner.symm.trans (hcongr.trans howner'))

theorem Picks.fresh {st : P2pState cfg} (hst : st.Running) {shardKey : CStr}
    (hkey : shardKey ≠ []) {owner : NodeId} (h : Picks st.routerIds shardKey owner) :
    owner = st.shardOwnerIdFromKey shardKey := by
  obtain ⟨routers, hnodup, hids, howner⟩ := h
  have hcongr := P2pState.picked_congr hnodup hst.apart.routers_nodup hids shardKey
  rw [P2pState.shardOwnerIdFromKey_eq hkey, ← hcongr, howner]
  rfl

theorem picks_shardOwner {st : P2pState cfg} (hst : st.Running) {shardKey : CStr}
    (hkey : shardKey ≠ []) (hne : st.routers ≠ []) :
    Picks st.routerIds shardKey (st.shardOwnerIdFromKey shardKey) := by
  obtain ⟨owner, -, howner⟩ := P2pState.picked_of_ne_nil hne shardKey
  refine ⟨st.routers, hst.apart.routers_nodup, rfl, ?_⟩
  rw [P2pState.shardOwnerIdFromKey_eq hkey, howner]
  rfl

/-! ## Cache entries -/

section Entries

variable {b : ShardBuild} {sig : UInt32} {shardKey : CStr} {owner : NodeId}

theorem shardCacheMatch_iff {e : ShardOwnerCache} : e.shardCacheMatch sig shardKey = true ↔
    e.inUse = true ∧ e.topologySig = sig ∧ e.shardKey = shardKey := by
  simp [shardCacheMatch, and_assoc]

theorem shardCacheScan_spec {cache : Fin b.cacheSize → ShardOwnerCache} {is : List (Fin b.cacheSize)}
    (h : shardCacheScan cache sig shardKey is = some owner) :
    ∃ i, (cache i).shardCacheMatch sig shardKey = true ∧ (cache i).ownerId = owner := by
  induction is with
  | nil => cases h
  | cons i is ih =>
      rw [shardCacheScan] at h
      split_ifs at h with hmatch
      · exact ⟨i, hmatch, Option.some.inj h⟩
      · exact ih h

theorem threadCacheLookup_spec {cache : ThreadCache}
    (h : cache.threadCacheLookup sig shardKey = some owner) :
    ∃ i, (cache.entries i).shardCacheMatch sig shardKey = true ∧
      (cache.entries i).ownerId = owner := by
  obtain ⟨i, hi, howner⟩ := Option.map_eq_some_iff.mp h
  have hmatch := List.find?_some hi
  exact ⟨i, hmatch, howner⟩

/-- What is in a cache after a store. -/
theorem shardCacheStore_cases (sig : UInt32) (shardKey : CStr) (owner : NodeId)
    (cache : Fin b.cacheSize → ShardOwnerCache) (i : Fin b.cacheSize) :
    shardCacheStore cache sig shardKey owner i = shardCacheWrite sig shardKey owner ∨
      shardCacheStore cache sig shardKey owner i = cache i := by
  simp only [shardCacheStore, Function.update_apply]
  split_ifs
  · exact .inl rfl
  · exact .inr rfl

theorem threadCacheStore_cases (sig : UInt32) (shardKey : CStr) (owner : NodeId)
    (cache : ThreadCache) (i : Fin 8) :
    (cache.threadCacheStore sig shardKey owner).entries i = shardCacheWrite sig shardKey owner ∨
      (cache.threadCacheStore sig shardKey owner).entries i = cache.entries i := by
  simp only [ThreadCache.threadCacheStore, Function.update_apply]
  split_ifs
  · exact .inl rfl
  · exact .inr rfl

end Entries

/-! ## The invariant -/

namespace ShardNotes

/-- The signature was computed from these nodes. -/
def Signed (n : ShardNotes κ) (sig : UInt32) (ids : Finset NodeId) : Prop :=
  (sig, ids) ∈ n.topologies

/-- An entry with the right owner for the topology of its signature. -/
def Owned (n : ShardNotes κ) (e : ShardOwnerCache) : Prop :=
  e.inUse = true → ∃ ids, n.Signed e.topologySig ids ∧ Picks ids e.shardKey e.ownerId

/-- What a thread in a lookup knows. -/
def Knows (n : ShardNotes κ) (k : κ) : OwnerLookup → Prop
  | .idle => True
  | .signed key sig | .probed key sig | .missed key sig =>
      key ≠ [] ∧ key.length ≤ MQTT_TOPIC_MAX - 1 ∧ n.Signed sig (n.read k)
  | .computed key sig owner | .stored key sig owner =>
      key ≠ [] ∧ key.length ≤ MQTT_TOPIC_MAX - 1 ∧ n.Signed sig (n.read k) ∧
        Picks (n.read k) key owner

end ShardNotes

/-- The state of the caches and of the lookups, beside the notes. -/
structure Coherent {b : ShardBuild} (s : ShardState cfg b κ) (n : ShardNotes κ) : Prop where
  running : s.election.Running
  last : n.topologies.head?.map Prod.fst = some s.election.topologySig
  shared : ∀ i, n.Owned (s.ownerCache i)
  thread : ∀ k i, n.Owned ((s.threadCache k).entries i)
  knows : ∀ k, n.Knows k (s.lookup k)
  transparent : n.Transparent

section Entries

omit [DecidableEq κ]

variable {b : ShardBuild} {s : ShardState cfg b κ} {n n' : ShardNotes κ}

theorem ShardNotes.Owned.mono {e : ShardOwnerCache} (h : n.Owned e)
    (hsub : n.topologies ⊆ n'.topologies) : n'.Owned e := fun huse ↦ by
  obtain ⟨ids, hsigned, hpicks⟩ := h huse
  exact ⟨ids, hsub hsigned, hpicks⟩

theorem ShardNotes.Knows.mono {k : κ} {l : OwnerLookup} (h : n.Knows k l)
    (hsub : n.topologies ⊆ n'.topologies) (hread : n'.read k = n.read k) : n'.Knows k l := by
  cases l with
  | idle => trivial
  | signed | probed | missed =>
      obtain ⟨hne, hlen, hsigned⟩ := h
      exact ⟨hne, hlen, hread ▸ hsub hsigned⟩
  | computed | stored =>
      obtain ⟨hne, hlen, hsigned, hpicks⟩ := h
      exact ⟨hne, hlen, hread ▸ hsub hsigned, hread ▸ hpicks⟩

/-- A new entry is right if its owner is. -/
theorem owned_write {sig : UInt32} {key : CStr} {owner : NodeId} {ids : Finset NodeId}
    (hlen : key.length ≤ MQTT_TOPIC_MAX - 1) (hsigned : n.Signed sig ids)
    (hpicks : Picks ids key owner) : n.Owned (shardCacheWrite sig key owner) := by
  intro _
  refine ⟨ids, hsigned, ?_⟩
  rw [shardCacheWrite, List.take_of_length_le hlen]
  exact hpicks

/-- An entry found for a signature has the owner that the table says, if the
signature stands for the routers of the table. -/
theorem owned_fresh (hfree : n.CollisionFree) (hst : s.election.Running) {e : ShardOwnerCache}
    (he : n.Owned e) {sig : UInt32} {key : CStr} (hmatch : e.shardCacheMatch sig key = true)
    (hkey : key ≠ []) (hsigned : n.Signed sig s.election.routerIds) :
    e.ownerId = s.election.shardOwnerIdFromKey key := by
  obtain ⟨huse, hsig, rfl⟩ := shardCacheMatch_iff.mp hmatch
  obtain ⟨ids, hids, hpicks⟩ := he huse
  have hsame : ids = s.election.routerIds := hfree _ hids _ hsigned hsig
  exact Picks.fresh hst hkey (hsame ▸ hpicks)

end Entries

/-! ## Steps -/

theorem call_recomputed (st : P2pState cfg) (c : ElectionCall) :
    match st.recomputed c with
    | some (st', env) => (st.call c).1.topologySig = (st'.elected env).2
    | none => (st.call c).1.topologySig = st.topologySig := by
  cases c with
  | updateSelf env => rfl
  | buildAnnounce env => rfl
  | recordPublish now => exact congrArg Prod.snd (P2pState.flushPublishWindow_pair now)
  | updatePeer ann addr env =>
      by_cases hself : ann.nodeId = st.selfId
      · simp only [P2pState.recomputed, P2pState.call, hself, if_true]
      · cases hslot : st.updateSlot ann.nodeId with
        | none =>
            simp only [P2pState.recomputed, P2pState.call, hself, if_false, hslot, Option.map_none]
        | some i =>
            simp only [P2pState.recomputed, P2pState.call, hself, if_false, hslot, Option.map_some]
            rfl

section Steps

variable {b : ShardBuild} {s s' : ShardState cfg b κ} {n : ShardNotes κ}

theorem transparent_note {e : ShardEvent κ} (h : n.Transparent)
    (hanswer : ∀ r a, s.next e = some (r, some a) → a.cached = true →
      a.owner = s.election.shardOwnerIdFromKey a.shardKey) : (n.note s e).Transparent := by
  unfold ShardNotes.Transparent ShardNotes.note
  dsimp only
  split
  · rename_i r a hnext
    intro p hp hcached
    rcases List.mem_cons.mp hp with rfl | hp
    · exact hanswer r a hnext hcached
    · exact h p hp hcached
  · exact h

theorem note_call_topologies (c : ElectionCall) :
    n.topologies ⊆ (n.note s (.call c)).topologies ∧
      (n.topologies.head?.map Prod.fst = some s.election.topologySig →
        (n.note s (.call c)).topologies.head?.map Prod.fst =
          some (s.election.call c).1.topologySig) := by
  have hcall := call_recomputed s.election c
  unfold ShardNotes.note
  dsimp only
  cases hr : s.election.recomputed c with
  | none =>
      rw [hr] at hcall
      dsimp only at hcall ⊢
      rw [hcall]
      exact ⟨List.Subset.refl _, id⟩
  | some r =>
      rw [hr] at hcall
      dsimp only at hcall ⊢
      rw [hcall]
      exact ⟨List.subset_cons_self .., fun _ ↦ rfl⟩

/-- A step of the election: more topologies, and nothing else that matters to the caches. -/
theorem Coherent.call (h : Coherent s n) (c : ElectionCall) :
    Coherent { s with election := (s.election.call c).1 } (n.note s (.call c)) := by
  obtain ⟨hsub, hlast⟩ := note_call_topologies (s := s) (n := n) c
  exact
    { running := h.running.call c
      last := hlast h.last
      shared := fun i ↦ (h.shared i).mono hsub
      thread := fun k i ↦ (h.thread k i).mono hsub
      knows := fun k ↦ (h.knows k).mono hsub rfl
      transparent := h.transparent }

/-- A step of a lookup, which may have written new entries. -/
theorem Coherent.advance (h : Coherent s n) {n' : ShardNotes κ} {k : κ} {l : OwnerLookup}
    {shared : Fin b.cacheSize → ShardOwnerCache} {thread : κ → ThreadCache}
    (htop : n'.topologies = n.topologies) (hread : ∀ j ≠ k, n'.read j = n.read j)
    (hshared : ∀ i, n.Owned (shared i)) (hthread : ∀ k i, n.Owned ((thread k).entries i))
    (hknows : n'.Knows k l) (htransparent : n'.Transparent) :
    Coherent ⟨s.election, shared, thread, Function.update s.lookup k l⟩ n' := by
  have hsub : n.topologies ⊆ n'.topologies := fun p hp ↦ htop ▸ hp
  refine ⟨h.running, htop ▸ h.last, fun i ↦ (hshared i).mono hsub,
    fun k i ↦ (hthread k i).mono hsub, fun j ↦ ?_, htransparent⟩
  by_cases hj : j = k
  · subst hj
    dsimp only
    rw [Function.update_self]
    exact hknows
  · dsimp only
    rw [Function.update_of_ne hj]
    exact (h.knows j).mono hsub (hread j hj)

theorem Coherent.begin (h : Coherent s n) {k : κ} {src : CStr}
    (hallowed : LookupsCoherent s n (.begin k src))
    (hstep : (s.next (.begin k src)).map Prod.fst = some s') :
    Coherent s' (n.note s (.begin k src)) := by
  have hread : ∀ j ≠ k, (n.note s (.begin k src)).read j = n.read j := fun j hj ↦
    Function.update_of_ne hj _ _
  have hself : (n.note s (.begin k src)).read k = s.election.routerIds := Function.update_self ..
  have htransparent : (n.note s (.begin k src)).Transparent := by
    refine transparent_note h.transparent fun r a ha hcached ↦ ?_
    simp only [ShardState.next, ShardState.beginLookup] at ha
    split at ha
    · split_ifs at ha
      · cases ha
        cases hcached
      · simp at ha
    · cases ha
  simp only [ShardState.next, ShardState.beginLookup] at hstep
  split at hstep
  · rename_i hidle
    split_ifs at hstep with hkey
    · obtain rfl : s = s' := by simpa using hstep
      have hstay : Function.update s.lookup k .idle = s.lookup := by
        rw [← hidle, Function.update_eq_self]
      have hcoherent : Coherent _ (n.note s (.begin k src)) :=
        h.advance (l := .idle) rfl hread h.shared h.thread trivial htransparent
      rwa [hstay] at hcoherent
    · obtain rfl : s.goto k _ = s' := by simpa using hstep
      refine h.advance rfl hread h.shared h.thread ⟨hkey, shardKeyFromStr_length src, ?_⟩
        htransparent
      -- the last signature, and the routers it was computed from
      have hids := hallowed.resolve_left hkey
      have hsig := h.last
      rw [hself]
      cases htop : n.topologies with
      | nil =>
          rw [htop] at hids
          cases hids
      | cons p rest =>
          rw [htop] at hids hsig
          have hp : p = (s.election.topologySig, s.election.routerIds) :=
            Prod.ext (Option.some.inj hsig) (Option.some.inj hids)
          change _ ∈ n.topologies
          rw [htop, hp]
          exact List.mem_cons_self
  · cases hstep

theorem settles_of_cached {k : κ} {r : ShardState cfg b κ} {a : OwnerAnswer}
    (h : s.resumeLookup k = some (r, some a)) (hcached : a.cached = true) :
    s.settles k = true := by
  unfold ShardState.settles
  rw [h]
  split
  · rfl
  · rename_i heq _
    cases heq
    exact hcached
  · rename_i hnone
    exact absurd rfl (hnone r a)

/-- What a lookup finds in a cache is what the table says. -/
theorem Coherent.answer (h : Coherent s n) (hfree : n.CollisionFree) {k : κ}
    (hallowed : LookupsCoherent s n (.resume k)) {r : ShardState cfg b κ} {a : OwnerAnswer}
    (hanswer : s.resumeLookup k = some (r, some a)) (hcached : a.cached = true) :
    a.owner = s.election.shardOwnerIdFromKey a.shardKey := by
  have hrouters := hallowed (settles_of_cached hanswer hcached)
  have hknows := h.knows k
  unfold ShardState.resumeLookup at hanswer
  cases hl : s.lookup k with
  | idle =>
      rw [hl] at hanswer
      cases hanswer
  | signed key sig =>
      rw [hl] at hanswer hknows
      obtain ⟨hkey, -, hsigned⟩ := hknows
      dsimp only at hanswer
      split_ifs at hanswer
      · simp at hanswer
      · cases hfound : (s.threadCache k).threadCacheLookup sig key with
        | none => simp [hfound] at hanswer
        | some owner =>
            rw [hfound] at hanswer
            cases hanswer
            obtain ⟨i, hmatch, rfl⟩ := threadCacheLookup_spec hfound
            exact owned_fresh hfree h.running (h.thread k i) hmatch hkey (hrouters ▸ hsigned)
  | probed key sig =>
      rw [hl] at hanswer hknows
      obtain ⟨hkey, -, hsigned⟩ := hknows
      dsimp only at hanswer
      cases hfound : shardCacheLookup s.ownerCache sig key with
      | none => simp [hfound] at hanswer
      | some owner =>
          rw [hfound] at hanswer
          cases hanswer
          obtain ⟨i, hmatch, rfl⟩ := shardCacheScan_spec hfound
          exact owned_fresh hfree h.running (h.shared i) hmatch hkey (hrouters ▸ hsigned)
  | missed key sig =>
      rw [hl] at hanswer
      dsimp only at hanswer
      split_ifs at hanswer
      · cases hanswer
        cases hcached
      · simp at hanswer
  | computed key sig owner =>
      rw [hl] at hanswer
      dsimp only at hanswer
      split_ifs at hanswer
      · cases hanswer
        cases hcached
      · simp at hanswer
  | stored key sig owner =>
      rw [hl] at hanswer
      cases hanswer
      cases hcached

theorem Coherent.resume (h : Coherent s n) (hfree : n.CollisionFree) {k : κ}
    (hallowed : LookupsCoherent s n (.resume k))
    (hstep : (s.next (.resume k)).map Prod.fst = some s') :
    Coherent s' (n.note s (.resume k)) := by
  have htransparent : (n.note s (.resume k)).Transparent :=
    transparent_note h.transparent fun _ _ ha hcached ↦ h.answer hfree hallowed ha hcached
  have hread : ∀ j ≠ k, (n.note s (.resume k)).read j = n.read j := fun _ _ ↦ rfl
  obtain ⟨⟨r, a⟩, hnext, rfl⟩ := Option.map_eq_some_iff.mp hstep
  have hknows := h.knows k
  change s.resumeLookup k = some (r, a) at hnext
  unfold ShardState.resumeLookup at hnext
  dsimp only
  cases hl : s.lookup k with
  | idle =>
      rw [hl] at hnext
      cases hnext
  | signed key sig =>
      rw [hl] at hnext hknows
      dsimp only at hnext
      split_ifs at hnext
      · cases hnext
        exact h.advance rfl hread h.shared h.thread hknows htransparent
      · cases hfound : (s.threadCache k).threadCacheLookup sig key with
        | none =>
            rw [hfound] at hnext
            cases hnext
            exact h.advance rfl hread h.shared h.thread hknows htransparent
        | some owner =>
            rw [hfound] at hnext
            cases hnext
            exact h.advance rfl hread h.shared h.thread trivial htransparent
  | probed key sig =>
      rw [hl] at hnext hknows
      dsimp only at hnext
      cases hfound : shardCacheLookup s.ownerCache sig key with
      | none =>
          rw [hfound] at hnext
          cases hnext
          exact h.advance rfl hread h.shared h.thread hknows htransparent
      | some owner =>
          rw [hfound] at hnext
          cases hnext
          exact h.advance rfl hread h.shared h.thread trivial htransparent
  | missed key sig =>
      have hrouters : s.election.routerIds = n.read k :=
        hallowed (by rw [ShardState.settles, hl])
      rw [hl] at hnext hknows
      obtain ⟨hkey, hlen, hsigned⟩ := hknows
      dsimp only at hnext
      split_ifs at hnext with hnone
      · cases hnext
        exact h.advance rfl hread h.shared h.thread trivial htransparent
      · cases hnext
        have hpicks := picks_shardOwner h.running hkey hnone
        exact h.advance rfl hread h.shared h.thread ⟨hkey, hlen, hsigned, hrouters ▸ hpicks⟩
          htransparent
  | computed key sig owner =>
      rw [hl] at hnext hknows
      obtain ⟨hkey, hlen, hsigned, hpicks⟩ := hknows
      have hshared : ∀ i, n.Owned (shardCacheStore s.ownerCache sig key owner i) := by
        intro i
        rcases shardCacheStore_cases sig key owner s.ownerCache i with hnew | hold
        · rw [hnew]
          exact owned_write hlen hsigned hpicks
        · rw [hold]
          exact h.shared i
      dsimp only at hnext
      split_ifs at hnext
      · cases hnext
        exact h.advance rfl hread hshared h.thread trivial htransparent
      · cases hnext
        exact h.advance rfl hread hshared h.thread ⟨hkey, hlen, hsigned, hpicks⟩ htransparent
  | stored key sig owner =>
      rw [hl] at hnext hknows
      obtain ⟨-, hlen, hsigned, hpicks⟩ := hknows
      cases hnext
      refine h.advance rfl hread h.shared (fun j i ↦ ?_) trivial htransparent
      dsimp only
      rw [Function.update_apply]
      split_ifs with hj
      · rcases threadCacheStore_cases sig key owner (s.threadCache k) i with hnew | hold
        · rw [hnew]
          exact owned_write hlen hsigned hpicks
        · rw [hold]
          exact h.thread k i
      · exact h.thread j i

omit [DecidableEq κ] in
theorem coherent_start (nodeId : NodeId) (env : ElectionEnv) :
    Coherent (ShardState.start b κ nodeId env : ShardState cfg b κ)
      (ShardNotes.start cfg κ nodeId env) where
  running := .init nodeId env
  last := rfl
  shared _ huse := nomatch huse
  thread _ _ huse := nomatch huse
  knows _ := trivial
  transparent _ ha := nomatch ha

end Steps

/-- In every run of the election and of lookups by any threads in which no two
topologies have the same signature: what the caches return is what the table says,
provided that each lookup reads the signature when it stands for the routers of
the table, and finds the same routers when it settles on an owner. -/
theorem owner_caches_transparent {b : ShardBuild} {nodeId : NodeId} {env : ElectionEnv}
    {s : ShardState cfg b κ} {n : ShardNotes κ}
    (h : Observer.Reach (shardSystem cfg b κ) LookupsCoherent (ShardState.start b κ nodeId env)
      (ShardNotes.start cfg κ nodeId env) s n) (hfree : n.CollisionFree) : n.Transparent := by
  refine (h.invariant (I := fun s n ↦ n.CollisionFree → Coherent s n)
    (fun _ ↦ coherent_start nodeId env) ?_ hfree).transparent
  intro s n e s' _ hcoherent hallowed hstep hfree
  change (s.next e).map Prod.fst = some s' at hstep
  change Coherent s' (n.note s e)
  have hpast : n.CollisionFree → Coherent s n := hcoherent
  cases e with
  | call c =>
      have hsub := (note_call_topologies (s := s) (n := n) c).1
      cases hstep
      exact (hpast fun p hp q hq ↦ hfree p (hsub hp) q (hsub hq)).call c
  | begin k src => exact (hpast hfree).begin hallowed hstep
  | resume k => exact (hpast hfree).resume hfree hallowed hstep

/-! ## When a signature stands for the table -/

namespace P2pState

variable {st : P2pState cfg} {env : ElectionEnv}

theorem mem_routerIds {id : NodeId} : id ∈ st.routerIds ↔
    ∃ i, (st.peers i).inUse = true ∧ (st.peers i).role = P2pRole.router.toByte ∧
      (st.peers i).nodeId = id := by
  simp only [routerIds, routers, nodesInUse, List.mem_toFinset, List.mem_map, List.mem_filter,
    List.mem_finRange, true_and, decide_eq_true_eq]
  constructor
  · rintro ⟨p, ⟨⟨⟨i, rfl⟩, huse⟩, hrole⟩, hid⟩
    exact ⟨i, huse, hrole, hid⟩
  · rintro ⟨i, huse, hrole, hid⟩
    exact ⟨_, ⟨⟨⟨i, rfl⟩, huse⟩, hrole⟩, hid⟩

/-- The nodes hashed are the routers of the table in which the own role is the old one. -/
theorem hashedIds_of_scored (h : env.staticSeedsOnly = false) :
    st.hashedIds env = (st.refreshed env).routerIds := by
  have hperm : (exchangeSort (st.refreshed env).nodesInUse.length (st.refreshed env).nodesInUse).Perm
      (st.refreshed env).nodesInUse := by
    rw [exchangeSort_eq]
    exact ExchangeSort.sort_perm _ _ _
  unfold hashedIds routerIds routers
  simp only [h, Bool.false_eq_true, if_false]
  exact List.toFinset_eq_of_perm _ _ ((hperm.filter _).map _)

theorem refreshed_role_zero : ((st.refreshed env).peers 0).role = st.role.toByte := by
  simp only [refreshed, localScore, Function.update_self]
  exact congrArg (fun r : P2pRole × UInt32 ↦ r.1.toByte) (flushPublishWindow_pair env.now)

theorem recomputeRole_peers : (st.recomputeRole env).2.peers = Function.update
    (st.refreshed env).peers 0
    { (st.refreshed env).peers 0 with role := (st.elected env).1.toByte } := rfl

theorem toByte_inj {r r' : P2pRole} : r.toByte = r'.toByte ↔ r = r' := by
  cases r <;> cases r' <;> simp [P2pRole.toByte]

/-- A node is hashed as its own old role has it. -/
theorem self_mem_hashedIds (h : st.IdsApart) (hscored : env.staticSeedsOnly = false) :
    st.selfId ∈ st.hashedIds env ↔ st.role = .router := by
  have hfresh : (st.refreshed env).IdsApart := refreshed_apart h
  rw [hashedIds_of_scored hscored, mem_routerIds]
  constructor
  · rintro ⟨i, huse, hrole, hid⟩
    have hzero : i = 0 := hfresh.apart i 0 huse hfresh.self_use
      (hid.trans (refreshed_selfId.symm.trans hfresh.self_id.symm))
    rw [hzero, refreshed_role_zero] at hrole
    exact toByte_inj.mp hrole
  · intro hrole
    refine ⟨0, hfresh.self_use, ?_, hfresh.self_id.trans refreshed_selfId⟩
    rw [refreshed_role_zero, hrole]

theorem self_mem_routerIds (h : st.IdsApart) :
    st.selfId ∈ st.routerIds ↔ (st.peers 0).role = P2pRole.router.toByte := by
  rw [mem_routerIds]
  constructor
  · rintro ⟨i, huse, hrole, hid⟩
    rwa [h.apart i 0 huse h.self_use (hid.trans h.self_id.symm)] at hrole
  · exact fun hrole ↦ ⟨0, h.self_use, hrole, h.self_id⟩

/-- The signature of a recomputation stands for the routers that the table has
after it if and only if the role of the node itself has not changed. -/
theorem hashedIds_eq_routerIds_iff (h : st.IdsApart) (hscored : env.staticSeedsOnly = false) :
    st.hashedIds env = (st.recomputeRole env).2.routerIds ↔ (st.elected env).1 = st.role := by
  have hafter : (st.recomputeRole env).2.IdsApart := recomputeRole_apart h
  have hself : (st.recomputeRole env).2.selfId = st.selfId := refreshed_selfId
  constructor
  · intro heq
    have hold := self_mem_hashedIds h hscored
    rw [heq, ← hself, self_mem_routerIds hafter, recomputeRole_peers, Function.update_self,
      toByte_inj] at hold
    cases hnew : (st.elected env).1 <;> cases hrole : st.role <;> simp_all
  · intro heq
    have hpeers : (st.recomputeRole env).2.peers = (st.refreshed env).peers := by
      have hzero : ((st.refreshed env).peers 0).role = st.role.toByte := refreshed_role_zero
      rw [recomputeRole_peers, heq, ← hzero]
      exact Function.update_eq_self 0 _
    rw [hashedIds_of_scored hscored]
    unfold routerIds routers nodesInUse
    rw [hpeers]

/-- In a build with `CONFIG_MQTT_P2P_STATIC_SEEDS_ONLY` it does if every other node is a router. -/
theorem hashedIds_eq_routerIds_of_static (hstatic : env.staticSeedsOnly = true)
    (hall : ∀ i ≠ 0, ((st.refreshed env).peers i).inUse = true →
      ((st.refreshed env).peers i).role = P2pRole.router.toByte) :
    st.hashedIds env = (st.recomputeRole env).2.routerIds := by
  have hrole : (st.elected env).1 = .router := by
    simp only [elected, hstatic, if_true]
  ext id
  rw [mem_routerIds, recomputeRole_peers, hrole]
  simp only [hashedIds, hstatic, if_true, nodesInUse, List.mem_toFinset, List.mem_map,
    List.mem_filter, List.mem_finRange, true_and]
  constructor
  · rintro ⟨p, ⟨⟨i, rfl⟩, huse⟩, hid⟩
    refine ⟨i, ?_⟩
    by_cases hi : i = 0
    · subst hi
      rw [Function.update_self]
      exact ⟨huse, rfl, hid⟩
    · rw [Function.update_of_ne hi]
      exact ⟨huse, hall i hi huse, hid⟩
  · rintro ⟨i, huse, -, hid⟩
    refine ⟨_, ⟨⟨i, rfl⟩, ?_⟩, ?_⟩
    all_goals
      by_cases hi : i = 0
      · subst hi
        rw [Function.update_self] at huse hid
        assumption
      · rw [Function.update_of_ne hi] at huse hid
        assumption

end P2pState

/-! ## Stale owners -/

namespace ShardSample

open P2pState

def build : ShardBuild := ⟨false, 256, by decide⟩

/-- The topic `a`. -/
def topic : CStr := [0x61]

/-- A lookup that finds nothing in the caches. -/
def missing {κ : Type*} (k : κ) : List (ShardEvent κ) :=
  [.resume k, .resume k, .resume k, .resume k, .resume k]

/-- Room for so many clients, and one router wanted. -/
def roomAt (now freeSlots : ℤ) : ElectionEnv := ⟨false, 1, now, freeSlots, ⟨0, 0, 0, 0⟩⟩

/-- A broker is a leaf beside the router 2 and keeps the owner of a topic; then it has
room for more clients and becomes a router. -/
def flips : List (ShardEvent Unit) :=
  [.call (hears 2 1 50 (roomAt 1000 4)), .call (.updateSelf (roomAt 2000 4)),
    .begin () topic] ++ missing () ++
  [.call (.updateSelf (roomAt 3000 8)), .begin () topic, .resume ()]

/-- A lookup reads the signature of two routers and takes a snapshot of three; then
the third one is gone. -/
def overtaken : List (ShardEvent Unit) :=
  [.call (hears 2 1 50 (electionAt 1000)), .begin () topic, .resume (), .resume (),
    .call (hears 3 1 50 (electionAt 2000)), .resume (), .resume (), .resume (),
    .call (hears 2 1 50 (electionAt 16500)), .call (.updateSelf (electionAt 17500)),
    .begin () topic, .resume ()]

/-- The routers stay the same. -/
def steady : List (ShardEvent Unit) :=
  [.call (hears 2 1 50 (electionAt 1000)), .begin () topic] ++ missing () ++
    [.begin () topic, .resume ()]

end ShardSample

section Runs

open Observer P2pState ShardSample

/-- The caches answer when the routers have not changed. -/
theorem steady_transparent : ∃ (s : ShardState Config.posix build Unit) (n : ShardNotes Unit),
    Reach (shardSystem _ _ _) LookupsCoherent (.start build Unit (fun _ ↦ 1) (electionAt 0))
      (.start Config.posix Unit (fun _ ↦ 1) (electionAt 0)) s n ∧
    (∃ a ∈ n.answers, a.1.cached = true) ∧ n.Transparent := by
  have hrun : ((run (shardSystem Config.posix build Unit)
      (.start build Unit (fun _ ↦ 1) (electionAt 0),
        .start Config.posix Unit (fun _ ↦ 1) (electionAt 0)) steady).map fun r ↦
      decide (r.2.CollisionFree ∧ ∃ a ∈ r.2.answers, a.1.cached = true)) = some true := by
    decide +kernel
  have hchecked : checked (shardSystem Config.posix build Unit) LookupsCoherent
      (.start build Unit (fun _ ↦ 1) (electionAt 0))
      (.start Config.posix Unit (fun _ ↦ 1) (electionAt 0)) steady = true := by
    decide +kernel
  obtain ⟨⟨s, n⟩, hend, hdec⟩ := Option.map_eq_some_iff.mp hrun
  obtain ⟨hfree, hcached⟩ := of_decide_eq_true hdec
  have hreach := Reach.start.run_of_checked hchecked hend
  exact ⟨s, n, hreach, hcached, owner_caches_transparent hreach hfree⟩

/-- A run in which no two topologies have the same signature, and a cache returns an
owner that the table does not say. -/
def ReturnsStale (env : ElectionEnv) : Prop :=
  ∃ (s : ShardState Config.posix build Unit) (n : ShardNotes Unit),
    Reach (shardSystem _ _ _) (fun _ _ _ ↦ True) (.start build Unit (fun _ ↦ 1) env)
      (.start Config.posix Unit (fun _ ↦ 1) env) s n ∧ n.CollisionFree ∧ ¬ n.Transparent

theorem returnsStale_of_run {env : ElectionEnv} {es : List (ShardEvent Unit)}
    (h : ((run (shardSystem Config.posix build Unit) (.start build Unit (fun _ ↦ 1) env,
      .start Config.posix Unit (fun _ ↦ 1) env) es).map fun r ↦
      decide (r.2.CollisionFree ∧ ¬ r.2.Transparent)) = some true) : ReturnsStale env := by
  obtain ⟨⟨s, n⟩, hend, hdec⟩ := Option.map_eq_some_iff.mp h
  exact ⟨s, n, Reach.start.run (fun _ _ _ _ ↦ trivial) hend, of_decide_eq_true hdec⟩

/-- After the node has become a router, and after a lookup was overtaken by an announcement. -/
theorem owner_caches_stale : ReturnsStale (roomAt 0 4) ∧ ReturnsStale (electionAt 0) := by
  constructor
  · have hflips : ((run (shardSystem Config.posix build Unit)
        (.start build Unit (fun _ ↦ 1) (roomAt 0 4),
          .start Config.posix Unit (fun _ ↦ 1) (roomAt 0 4)) flips).map fun r ↦
        decide (r.2.CollisionFree ∧ ¬ r.2.Transparent)) = some true := by
      decide +kernel
    exact returnsStale_of_run hflips
  · have hovertaken : ((run (shardSystem Config.posix build Unit)
        (.start build Unit (fun _ ↦ 1) (electionAt 0),
          .start Config.posix Unit (fun _ ↦ 1) (electionAt 0)) overtaken).map fun r ↦
        decide (r.2.CollisionFree ∧ ¬ r.2.Transparent)) = some true := by
      decide +kernel
    exact returnsStale_of_run hovertaken

end Runs

end MqttBroker
