import MqttBroker.Mesh.Message
import MqttBroker.Topic.Matchers

/-!
# The route table

`p2p_router.c`: what a broker knows about the subscriptions of other brokers.
For each owner there is a node with its filters and the neighbour through which
it was heard of; the filters are also kept in two tables of routes.
-/

namespace MqttBroker

variable {cfg : Config}

/-- `remote_sub_t` -/
structure RemoteSub where
  filter : CStr
  qos : UInt8
  inUse : Bool

/-- `remote_node_t` -/
structure RemoteNode (cfg : Config) where
  ownerId : NodeId
  nextHopId : NodeId
  inUse : Bool
  subs : Fin cfg.remoteSubsPerNode → RemoteSub

/-- The values of `in_use` in an exact route: 0, `P2P_EXACT_ROUTE_USED` and
`P2P_EXACT_ROUTE_DELETED`. -/
inductive RouteState where
  | empty
  | used
  | deleted
  deriving DecidableEq

/-- `exact_route_t` -/
structure ExactRoute where
  ownerId : NodeId
  nextHopId : NodeId
  filter : CStr
  state : RouteState

/-- `wildcard_route_t` -/
structure WildcardRoute where
  ownerId : NodeId
  nextHopId : NodeId
  filter : CStr
  inUse : Bool

/-- `P2P_REMOTE_EXACT_ROUTE_MAX` -/
def Config.routeMax (cfg : Config) : ℕ := (cfg.peerMax + 1) * cfg.remoteSubsPerNode

theorem Config.routeMax_pos (cfg : Config) : 0 < cfg.routeMax :=
  Nat.mul_pos (Nat.succ_pos _) cfg.remoteSubsPerNode_pos

abbrev RouteSlot (cfg : Config) := Fin cfg.routeMax

abbrev NodeSlot (cfg : Config) := Fin (cfg.peerMax + 1)

/-- The static variables `remote_nodes`, `exact_routes` and `wildcard_routes`. -/
structure RouteTable (cfg : Config) where
  nodes : NodeSlot cfg → RemoteNode cfg
  exact : RouteSlot cfg → ExactRoute
  wildcard : RouteSlot cfg → WildcardRoute

def zeroId : NodeId := fun _ ↦ 0

def RemoteNode.zeroed (cfg : Config) : RemoteNode cfg :=
  ⟨zeroId, zeroId, false, fun _ ↦ ⟨[], 0, false⟩⟩

/-- The table at the start. -/
def RouteTable.init (cfg : Config) : RouteTable cfg where
  nodes _ := .zeroed cfg
  exact _ := ⟨zeroId, zeroId, [], .empty⟩
  wildcard _ := ⟨zeroId, zeroId, [], false⟩

/-! ## The code -/

/-- `filter_is_exact` -/
def filterIsExact (filter : CStr) : Bool := !hasWildcard filter

/-- `hash_filter`: 32-bit FNV-1a. -/
def hashFilter (filter : CStr) : UInt32 :=
  filter.foldl (fun h c ↦ (h ^^^ c.toUInt32) * 16777619) 2166136261

/-- The exact routes in the order in which they are tried for a filter. -/
def probe (cfg : Config) (filter : CStr) : List (RouteSlot cfg) :=
  (List.range cfg.routeMax).map fun step ↦
    ⟨((hashFilter filter).toNat % cfg.routeMax + step) % cfg.routeMax,
      Nat.mod_lt _ cfg.routeMax_pos⟩

namespace RouteTable

variable (r : RouteTable cfg)

/-- The loop of `exact_route_upsert_locked`: the route of this owner and filter,
or else the one to fill. -/
def exactUpsertSlot (owner : NodeId) (filter : CStr) (free : Option (RouteSlot cfg)) :
    List (RouteSlot cfg) → RouteSlot cfg ⊕ Option (RouteSlot cfg)
  | [] => .inr free
  | i :: is =>
      if (r.exact i).state = .used ∧ (r.exact i).ownerId = owner ∧ (r.exact i).filter = filter then
        .inl i
      else if (r.exact i).state = .empty then .inr (some (free.getD i))
      else if (r.exact i).state = .deleted ∧ free = none then exactUpsertSlot owner filter (some i) is
      else exactUpsertSlot owner filter free is

/-- `exact_route_upsert_locked` -/
def exactRouteUpsert (owner hop : NodeId) (filter : CStr) : RouteTable cfg :=
  if !filterIsExact filter then r
  else
    match r.exactUpsertSlot owner filter none (probe cfg filter) with
    | .inl i =>
        { r with exact := Function.update r.exact i { r.exact i with nextHopId := hop } }
    | .inr (some i) =>
        let route : ExactRoute := ⟨owner, hop, filter.take (MQTT_TOPIC_MAX - 1), .used⟩
        { r with exact := Function.update r.exact i route }
    | .inr none => r

/-- `wildcard_route_upsert_locked` -/
def wildcardRouteUpsert (owner hop : NodeId) (filter : CStr) : RouteTable cfg :=
  if filterIsExact filter then r
  else
    match (List.finRange cfg.routeMax).find? fun i ↦ (r.wildcard i).inUse &&
        (r.wildcard i).ownerId = owner && (r.wildcard i).filter = filter with
    | some i =>
        let route := { r.wildcard i with nextHopId := hop }
        { r with wildcard := Function.update r.wildcard i route }
    | none =>
        match (List.finRange cfg.routeMax).find? fun i ↦ !(r.wildcard i).inUse with
        | some i =>
            let route : WildcardRoute := ⟨owner, hop, filter.take (MQTT_TOPIC_MAX - 1), true⟩
            { r with wildcard := Function.update r.wildcard i route }
        | none => r

/-- `route_upsert_locked` -/
def routeUpsert (owner hop : NodeId) (filter : CStr) : RouteTable cfg :=
  (r.exactRouteUpsert owner hop filter).wildcardRouteUpsert owner hop filter

/-- `node_routes_refresh_locked` -/
def nodeRoutesRefresh (node : RemoteNode cfg) : RouteTable cfg :=
  (List.finRange cfg.remoteSubsPerNode).foldl (fun r i ↦
    if (node.subs i).inUse then r.routeUpsert node.ownerId node.nextHopId (node.subs i).filter
    else r) r

/-- `exact_route_remove_locked` and `wildcard_route_remove_locked` -/
def routeRemove (owner : NodeId) (filter : CStr) : RouteTable cfg :=
  { r with
    exact := fun i ↦
      if (r.exact i).state = .used ∧ (r.exact i).ownerId = owner ∧ (r.exact i).filter = filter then
        { r.exact i with state := .deleted }
      else r.exact i
    wildcard := fun i ↦
      if (r.wildcard i).inUse ∧ (r.wildcard i).ownerId = owner ∧ (r.wildcard i).filter = filter then
        { r.wildcard i with inUse := false }
      else r.wildcard i }

def findNode (owner : NodeId) : Option (NodeSlot cfg) :=
  (List.finRange (cfg.peerMax + 1)).find? fun i ↦ (r.nodes i).inUse && (r.nodes i).ownerId = owner

def freeNode : Option (NodeSlot cfg) :=
  (List.finRange (cfg.peerMax + 1)).find? fun i ↦ !(r.nodes i).inUse

/-- `find_node_locked` with `create` -/
def findOrCreateNode (owner : NodeId) : Option (NodeSlot cfg × RouteTable cfg) :=
  match r.findNode owner with
  | some i => some (i, r)
  | none => r.freeNode.map fun i ↦
      let node := { RemoteNode.zeroed cfg with
        ownerId := owner
        inUse := true }
      (i, { r with nodes := Function.update r.nodes i node })

end RouteTable

namespace RemoteNode

variable (node : RemoteNode cfg)

/-- The slot that holds a filter. -/
def findSub (filter : CStr) : Option (Fin cfg.remoteSubsPerNode) :=
  (List.finRange cfg.remoteSubsPerNode).find? fun i ↦
    (node.subs i).inUse && (node.subs i).filter = filter

def freeSub : Option (Fin cfg.remoteSubsPerNode) :=
  (List.finRange cfg.remoteSubsPerNode).find? fun i ↦ !(node.subs i).inUse

/-- A notification that came through `hop` makes it the next hop of the node. -/
def RouteChanges (hop : NodeId) : Prop :=
  node.nextHopId = zeroId ∨ hop = node.ownerId ∧ node.nextHopId ≠ node.ownerId

instance (hop : NodeId) : Decidable (node.RouteChanges hop) :=
  inferInstanceAs (Decidable (_ ∨ _ ∧ _))

/-- The node after such a notification. -/
def heardFrom (hop : NodeId) : RemoteNode cfg :=
  if node.RouteChanges hop then { node with nextHopId := hop } else node

end RemoteNode

namespace RouteTable

variable (r : RouteTable cfg)

/-- `p2p_router_remote_subscribe`: its result and the table after it. -/
def remoteSubscribe (owner : NodeId) (filter : CStr) (qos : UInt8) (hop : NodeId) :
    Bool × RouteTable cfg :=
  match r.findOrCreateNode owner with
  | none => (false, r)
  | some (i, r) =>
      let routeChanged : Bool := (r.nodes i).RouteChanges hop
      let node := (r.nodes i).heardFrom hop
      match (node.findSub filter).or node.freeSub with
      -- the next hop is kept, but the routes are not brought up to date
      | none => (false, { r with nodes := Function.update r.nodes i node })
      | some j =>
          let changed := routeChanged || (node.findSub filter).isNone || (node.subs j).qos != qos
          let node := { node with
            subs := Function.update node.subs j ⟨filter.take (MQTT_TOPIC_MAX - 1), qos, true⟩ }
          let r := { r with nodes := Function.update r.nodes i node }
          (changed, if routeChanged then r.nodeRoutesRefresh node
            else r.routeUpsert owner node.nextHopId filter)

/-- `clear_node_if_empty_locked` -/
def clearNodeIfEmpty (i : NodeSlot cfg) : RouteTable cfg :=
  if (List.finRange cfg.remoteSubsPerNode).any fun j ↦ ((r.nodes i).subs j).inUse then r
  else { r with nodes := Function.update r.nodes i (.zeroed cfg) }

/-- `p2p_router_remote_unsubscribe` -/
def remoteUnsubscribe (owner : NodeId) (filter : CStr) : Bool × RouteTable cfg :=
  match r.findNode owner with
  | none => (false, r)
  | some i =>
      let node := r.nodes i
      let changed := (node.findSub filter).isSome
      let subs := fun j ↦
        if (node.subs j).inUse ∧ (node.subs j).filter = filter then
          { node.subs j with inUse := false }
        else node.subs j
      let r := { r with nodes := Function.update r.nodes i { node with subs := subs } }
      let r := if changed then r.routeRemove owner filter else r
      (changed, r.clearNodeIfEmpty i)

/-- `p2p_router_remove_node` -/
def removeNode (id : NodeId) : RouteTable cfg where
  nodes i :=
    if (r.nodes i).inUse ∧ ((r.nodes i).ownerId = id ∨ (r.nodes i).nextHopId = id) then .zeroed cfg
    else r.nodes i
  exact i :=
    if (r.exact i).state = .used ∧ ((r.exact i).ownerId = id ∨ (r.exact i).nextHopId = id) then
      { r.exact i with state := .deleted }
    else r.exact i
  wildcard i :=
    if (r.wildcard i).inUse ∧ ((r.wildcard i).ownerId = id ∨ (r.wildcard i).nextHopId = id) then
      { r.wildcard i with inUse := false }
    else r.wildcard i

/-- The loop over the exact routes in `p2p_router_find_next_hops`. -/
def exactHops (topic : CStr) (exclude : Option NodeId) (out : List NodeId) :
    List (RouteSlot cfg) → List NodeId
  | [] => out
  | i :: is =>
      if cfg.peerMax ≤ out.length ∨ (r.exact i).state = .empty then out
      else if (r.exact i).state = .used ∧ (r.exact i).filter = topic ∧
          some (r.exact i).nextHopId ≠ exclude ∧ (r.exact i).nextHopId ∉ out then
        exactHops topic exclude (out ++ [(r.exact i).nextHopId]) is
      else exactHops topic exclude out is

/-- One round of the loop over the wildcard routes. -/
def wildcardHop (topic : CStr) (exclude : Option NodeId) (out : List NodeId) (i : RouteSlot cfg) :
    List NodeId :=
  if out.length < cfg.peerMax ∧ (r.wildcard i).inUse ∧ some (r.wildcard i).nextHopId ≠ exclude ∧
      (r.wildcard i).nextHopId ∉ out ∧ Router.topicMatch (r.wildcard i).filter topic then
    out ++ [(r.wildcard i).nextHopId]
  else out

/-- `p2p_router_find_next_hops` with room for `P2P_PEER_MAX` hops. -/
def findNextHops (topic : CStr) (exclude : Option NodeId) : List NodeId :=
  let out := if filterIsExact topic then r.exactHops topic exclude [] (probe cfg topic) else []
  (List.finRange cfg.routeMax).foldl (r.wildcardHop topic exclude) out

end RouteTable

/-! ## What the next hops are -/

namespace RouteTable

variable {r : RouteTable cfg} {topic : CStr} {exclude : Option NodeId} {out : List NodeId}

/-- A route in use, in one of the two tables. -/
inductive HasRoute (r : RouteTable cfg) : NodeId → NodeId → CStr → Prop where
  | exact (i : RouteSlot cfg) (h : (r.exact i).state = .used) :
      HasRoute r (r.exact i).ownerId (r.exact i).nextHopId (r.exact i).filter
  | wildcard (i : RouteSlot cfg) (h : (r.wildcard i).inUse = true) :
      HasRoute r (r.wildcard i).ownerId (r.wildcard i).nextHopId (r.wildcard i).filter

theorem exactHops_le (h : out.length ≤ cfg.peerMax) (is : List (RouteSlot cfg)) :
    (r.exactHops topic exclude out is).length ≤ cfg.peerMax := by
  induction is generalizing out with
  | nil => exact h
  | cons i is ih =>
      unfold exactHops
      split_ifs with hfull hhop
      · exact h
      · refine ih ?_
        have hroom : out.length < cfg.peerMax := by
          by_contra hle
          exact hfull (.inl (not_lt.mp hle))
        simpa using hroom
      · exact ih h

theorem wildcardHop_le (h : out.length ≤ cfg.peerMax) (i : RouteSlot cfg) :
    (r.wildcardHop topic exclude out i).length ≤ cfg.peerMax := by
  unfold wildcardHop
  split_ifs with hhop
  · simpa using hhop.1
  · exact h

theorem findNextHops_le (r : RouteTable cfg) (topic : CStr) (exclude : Option NodeId) :
    (r.findNextHops topic exclude).length ≤ cfg.peerMax := by
  unfold findNextHops
  have hexact : (if filterIsExact topic then r.exactHops topic exclude [] (probe cfg topic)
      else []).length ≤ cfg.peerMax := by
    split_ifs
    · exact exactHops_le (Nat.zero_le _) _
    · exact Nat.zero_le _
  generalize (if filterIsExact topic then r.exactHops topic exclude [] (probe cfg topic)
    else []) = out at hexact ⊢
  induction List.finRange cfg.routeMax generalizing out with
  | nil => exact hexact
  | cons i is ih => exact ih _ (wildcardHop_le hexact i)

/-- A route in use through which a publish of the topic goes to `hop`. -/
def Leads (r : RouteTable cfg) (topic : CStr) (hop owner : NodeId) : Prop :=
  ∃ filter, r.HasRoute owner hop filter ∧
    (filter = topic ∨ Router.topicMatch filter topic = true)

theorem mem_exactHops {hop : NodeId} {is : List (RouteSlot cfg)}
    (h : hop ∈ r.exactHops topic exclude out is) :
    hop ∈ out ∨ some hop ≠ exclude ∧ ∃ owner, r.Leads topic hop owner := by
  induction is generalizing out with
  | nil => exact .inl h
  | cons i is ih =>
      unfold exactHops at h
      split_ifs at h with hfull hhop
      · exact .inl h
      · obtain ⟨hused, hfilter, hexclude, -⟩ := hhop
        rcases ih h with h | h
        · rcases List.mem_append.mp h with h | h
          · exact .inl h
          · obtain rfl := List.mem_singleton.mp h
            exact .inr ⟨hexclude, _, _, .exact i hused, .inl hfilter⟩
        · exact .inr h
      · exact ih h

theorem mem_wildcardHop {hop : NodeId} {i : RouteSlot cfg}
    (h : hop ∈ r.wildcardHop topic exclude out i) :
    hop ∈ out ∨ some hop ≠ exclude ∧ ∃ owner, r.Leads topic hop owner := by
  unfold wildcardHop at h
  split_ifs at h with hhop
  · obtain ⟨-, huse, hexclude, -, hmatch⟩ := hhop
    rcases List.mem_append.mp h with h | h
    · exact .inl h
    · obtain rfl := List.mem_singleton.mp h
      exact .inr ⟨hexclude, _, _, .wildcard i huse, .inr hmatch⟩
  · exact .inl h

/-- Every next hop comes from a route in use, and is not the one left out. -/
theorem mem_findNextHops {hop : NodeId} (h : hop ∈ r.findNextHops topic exclude) :
    some hop ≠ exclude ∧ ∃ owner, r.Leads topic hop owner := by
  unfold findNextHops at h
  have hexact : ∀ hop ∈ (if filterIsExact topic then
      r.exactHops topic exclude [] (probe cfg topic) else []),
      some hop ≠ exclude ∧ ∃ owner, r.Leads topic hop owner := by
    intro hop hhop
    split_ifs at hhop
    · exact (mem_exactHops hhop).resolve_left (by simp)
    · cases hhop
  dsimp only at h
  generalize (if filterIsExact topic then r.exactHops topic exclude [] (probe cfg topic)
    else []) = out at hexact h
  generalize List.finRange cfg.routeMax = slots at h
  induction slots generalizing out with
  | nil => exact hexact hop h
  | cons i is ih =>
      exact ih _ (fun hop hhop ↦ (mem_wildcardHop hhop).elim (hexact hop) id) h

end RouteTable

end MqttBroker
