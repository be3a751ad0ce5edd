import MqttBroker.Mesh.Routes
import MqttBroker.Lib.Probing

/-!
# The routes and the subscriptions

The two tables of routes are meant to say the same as the nodes: there is one
route for every subscription, with the next hop of its owner.
-/

namespace MqttBroker

open Keyed Probing

variable {cfg : Config}

/-- A filter is in one of the slots of the node. -/
def RemoteNode.HasSub (node : RemoteNode cfg) (filter : CStr) : Prop :=
  ∃ j, (node.subs j).inUse = true ∧ (node.subs j).filter = filter

instance (node : RemoteNode cfg) (filter : CStr) : Decidable (node.HasSub filter) :=
  inferInstanceAs (Decidable (∃ _, _ ∧ _))

namespace RouteTable

variable {r r' : RouteTable cfg} {o h owner hop id : NodeId} {f filter : CStr} {qos : UInt8}

/-! ## The tables of routes -/

def exactCell (r : RouteTable cfg) (i : RouteSlot cfg) : Cell (NodeId × CStr) :=
  match (r.exact i).state with
  | .empty => .empty
  | .used => .used ((r.exact i).ownerId, (r.exact i).filter)
  | .deleted => .deleted

def exactKey (r : RouteTable cfg) (i : RouteSlot cfg) : Option (NodeId × CStr) := (r.exactCell i).key

def wildcardKey (r : RouteTable cfg) (i : RouteSlot cfg) : Option (NodeId × CStr) :=
  if (r.wildcard i).inUse then some ((r.wildcard i).ownerId, (r.wildcard i).filter) else none

/-- The tables of routes by themselves: no two routes of an owner are for the same
filter, each is in the right table, and the exact ones can be found. -/
structure RoutesOk (r : RouteTable cfg) : Prop where
  exact_plain : ∀ i k, r.exactKey i = some k → filterIsExact k.2 = true
  exact_once : Once r.exactKey
  reached : Reached (fun k ↦ probe cfg k.2) r.exactCell
  wildcard_plain : ∀ i k, r.wildcardKey i = some k → filterIsExact k.2 = false
  wildcard_once : Once r.wildcardKey

theorem exactCell_used {i : RouteSlot cfg} {k : NodeId × CStr} : r.exactCell i = .used k ↔
    (r.exact i).state = .used ∧ (r.exact i).ownerId = k.1 ∧ (r.exact i).filter = k.2 := by
  unfold exactCell
  split <;> simp_all [Prod.ext_iff]

theorem exactCell_empty {i : RouteSlot cfg} :
    r.exactCell i = .empty ↔ (r.exact i).state = .empty := by
  unfold exactCell
  split <;> simp_all

theorem exactKey_some {i : RouteSlot cfg} {k : NodeId × CStr} : r.exactKey i = some k ↔
    (r.exact i).state = .used ∧ (r.exact i).ownerId = k.1 ∧ (r.exact i).filter = k.2 :=
  Cell.key_eq_some.trans exactCell_used

theorem wildcardKey_some {i : RouteSlot cfg} {k : NodeId × CStr} : r.wildcardKey i = some k ↔
    (r.wildcard i).inUse = true ∧ (r.wildcard i).ownerId = k.1 ∧ (r.wildcard i).filter = k.2 := by
  unfold wildcardKey
  split_ifs with huse <;> simp [huse, Prod.ext_iff]

theorem hasRoute_iff : r.HasRoute o h f ↔
    Maps r.exactKey (fun i ↦ (r.exact i).nextHopId) (o, f) h ∨
      Maps r.wildcardKey (fun i ↦ (r.wildcard i).nextHopId) (o, f) h := by
  simp only [Maps, exactKey_some, wildcardKey_some]
  constructor
  · intro hroute
    cases hroute with
    | exact i huse => exact .inl ⟨i, ⟨huse, rfl, rfl⟩, rfl⟩
    | wildcard i huse => exact .inr ⟨i, ⟨huse, rfl, rfl⟩, rfl⟩
  · rintro (⟨i, ⟨huse, rfl, rfl⟩, rfl⟩ | ⟨i, ⟨huse, rfl, rfl⟩, rfl⟩)
    · exact .exact i huse
    · exact .wildcard i huse

theorem routesOk_init : (RouteTable.init cfg).RoutesOk where
  exact_plain _ _ h := nomatch h
  exact_once _ _ _ h := nomatch h
  reached _ _ h := nomatch h
  wildcard_plain _ _ h := nomatch h
  wildcard_once _ _ _ h := nomatch h

/-- Routes are taken out. -/
theorem RoutesOk.remove (hok : r.RoutesOk)
    (hused : ∀ i k, r'.exactCell i = .used k → r.exactCell i = .used k)
    (hempty : ∀ i, r'.exactCell i = .empty → r.exactCell i = .empty)
    (hwildcard : ∀ i k, r'.wildcardKey i = some k → r.wildcardKey i = some k) : r'.RoutesOk := by
  have hexact : ∀ i k, r'.exactKey i = some k → r.exactKey i = some k := by
    intro i k hi
    exact Cell.key_eq_some.mpr (hused i k (Cell.key_eq_some.mp hi))
  exact ⟨fun i k hi ↦ hok.exact_plain i k (hexact i k hi), hok.exact_once.mono hexact,
    hok.reached.mono hused hempty, fun i k hi ↦ hok.wildcard_plain i k (hwildcard i k hi),
    hok.wildcard_once.mono hwildcard⟩

theorem mem_probe (i : RouteSlot cfg) : i ∈ probe cfg filter := by
  set start := (hashFilter filter).toNat % cfg.routeMax with hstart
  have hlt : start < cfg.routeMax := Nat.mod_lt _ cfg.routeMax_pos
  have hi := i.isLt
  refine List.mem_map.mpr ⟨(i + (cfg.routeMax - start)) % cfg.routeMax,
    List.mem_range.mpr (Nat.mod_lt _ cfg.routeMax_pos), Fin.ext ?_⟩
  dsimp only
  rw [← hstart, Nat.add_mod_mod]
  have hsum : start + (i + (cfg.routeMax - start)) = i + cfg.routeMax := by omega
  rw [hsum, Nat.add_mod_right, Nat.mod_eq_of_lt hi]

theorem exactUpsertSlot_eq_seek {free : Option (RouteSlot cfg)} {is : List (RouteSlot cfg)} :
    r.exactUpsertSlot owner filter free is = seek r.exactCell (owner, filter) free is := by
  induction is generalizing free with
  | nil => rfl
  | cons i is ih =>
      unfold exactUpsertSlot seek
      rw [ih, ih]
      unfold exactCell
      cases hstate : (r.exact i).state with
      | empty => simp
      | used => simp [Prod.ext_iff]
      | deleted => cases free <;> simp

/-! ## One route -/

/-- The routes after `owner` has got a route for `filter` through `hop`. -/
def Put (r : RouteTable cfg) (owner hop : NodeId) (filter : CStr) (o h : NodeId) (f : CStr) :
    Prop :=
  if (o, f) = (owner, filter) then h = hop else r.HasRoute o h f

section

variable {i : RouteSlot cfg}

theorem exactCell_put {route : ExactRoute} (hused : route.state = .used) :
    exactCell { r with exact := Function.update r.exact i route } =
      Function.update r.exactCell i (.used (route.ownerId, route.filter)) := by
  funext j
  by_cases hj : j = i
  · subst hj
    simp [exactCell, hused]
  · simp [exactCell, hj]

theorem wildcardKey_put {route : WildcardRoute} (hused : route.inUse = true) :
    wildcardKey { r with wildcard := Function.update r.wildcard i route } =
      Function.update r.wildcardKey i (some (route.ownerId, route.filter)) := by
  funext j
  by_cases hj : j = i
  · subst hj
    simp [wildcardKey, hused]
  · simp [wildcardKey, hj]

/-- The slot of the route for `filter`, or one that is not in use, gets the route. -/
theorem RoutesOk.putExact (hok : r.RoutesOk) (hexact : filterIsExact filter = true)
    (hold : ∀ j, r.exactKey j = some (owner, filter) → j = i)
    (hfree : ∀ k, r.exactKey i = some k → k = (owner, filter))
    (hreached : Reached (fun k ↦ probe cfg k.2)
      (Function.update r.exactCell i (.used (owner, filter)))) :
    let r' : RouteTable cfg :=
      { r with exact := Function.update r.exact i ⟨owner, hop, filter, .used⟩ }
    r'.RoutesOk ∧ ∀ o h f, r'.HasRoute o h f ↔ r.Put owner hop filter o h f := by
  intro r'
  have hcell : r'.exactCell = Function.update r.exactCell i (.used (owner, filter)) :=
    exactCell_put rfl
  have hkey : r'.exactKey = Function.update r.exactKey i (some (owner, filter)) := by
    funext j
    rw [exactKey, hcell]
    exact Function.apply_update (fun _ c ↦ Cell.key c) r.exactCell i _ j
  have hhop : (fun j ↦ (r'.exact j).nextHopId) =
      Function.update (fun j ↦ (r.exact j).nextHopId) i hop :=
    funext fun j ↦ Function.apply_update (fun _ e ↦ ExactRoute.nextHopId e) r.exact i _ j
  refine ⟨⟨fun j k hj ↦ ?_, hkey ▸ hok.exact_once.put hold, hcell ▸ hreached, hok.wildcard_plain,
    hok.wildcard_once⟩, fun o h f ↦ ?_⟩
  · rw [hkey] at hj
    rcases put_cases hold hj with ⟨-, rfl⟩ | ⟨-, -, hj⟩
    · exact hexact
    · exact hok.exact_plain j k hj
  · rw [Put, hasRoute_iff, hkey, hhop, maps_put hold hfree, hasRoute_iff]
    split_ifs with hsame
    · refine or_iff_left ?_
      rintro ⟨j, hj, -⟩
      have hplain := hok.wildcard_plain j _ hj
      rw [hsame, hexact] at hplain
      cases hplain
    · exact Iff.rfl

theorem RoutesOk.putWildcard (hok : r.RoutesOk) (hwild : filterIsExact filter = false)
    (hold : ∀ j, r.wildcardKey j = some (owner, filter) → j = i)
    (hfree : ∀ k, r.wildcardKey i = some k → k = (owner, filter)) :
    let r' : RouteTable cfg :=
      { r with wildcard := Function.update r.wildcard i ⟨owner, hop, filter, true⟩ }
    r'.RoutesOk ∧ ∀ o h f, r'.HasRoute o h f ↔ r.Put owner hop filter o h f := by
  intro r'
  have hkey : r'.wildcardKey = Function.update r.wildcardKey i (some (owner, filter)) :=
    wildcardKey_put rfl
  have hhop : (fun j ↦ (r'.wildcard j).nextHopId) =
      Function.update (fun j ↦ (r.wildcard j).nextHopId) i hop :=
    funext fun j ↦ Function.apply_update (fun _ e ↦ WildcardRoute.nextHopId e) r.wildcard i _ j
  refine ⟨⟨hok.exact_plain, hok.exact_once, hok.reached, fun j k hj ↦ ?_,
    hkey ▸ hok.wildcard_once.put hold⟩, fun o h f ↦ ?_⟩
  · rw [hkey] at hj
    rcases put_cases hold hj with ⟨-, rfl⟩ | ⟨-, -, hj⟩
    · exact hwild
    · exact hok.wildcard_plain j k hj
  · rw [Put, hasRoute_iff, hkey, hhop, maps_put hold hfree, hasRoute_iff]
    split_ifs with hsame
    · refine or_iff_right ?_
      rintro ⟨j, hj, -⟩
      have hplain := hok.exact_plain j _ hj
      rw [hsame, hwild] at hplain
      cases hplain
    · exact Iff.rfl

/-- There is a slot for the route of every subscription. -/
theorem exists_free_of_holds {key : RouteSlot cfg → Option (NodeId × CStr)} (honce : Once key)
    (hheld : ∀ i k, key i = some k → r.Holds k.1 k.2) (h : r.Holds owner filter)
    (hnot : ∀ i, key i ≠ some (owner, filter)) : ∃ i, key i = none := by
  let keyOf : NodeSlot cfg × Fin cfg.remoteSubsPerNode → NodeId × CStr :=
    fun t ↦ ((r.nodes t.1).ownerId, ((r.nodes t.1).subs t.2).filter)
  have hkeyOf : ∀ k, r.Holds k.1 k.2 → ∃ t, keyOf t = k :=
    fun k ⟨n, j, _, howner, _, hfilter⟩ ↦ ⟨(n, j), Prod.ext howner hfilter⟩
  obtain ⟨t₀, ht₀⟩ := hkeyOf (owner, filter) h
  refine exists_free (T := NodeSlot cfg × Fin cfg.remoteSubsPerNode) ?_ honce
    (fun i k hi ↦ hkeyOf k (hheld i k hi)) (fun i ↦ ht₀ ▸ hnot i)
  simp [Config.routeMax]

variable (hok : r.RoutesOk) (hbacked : ∀ o h f, r.HasRoute o h f → r.Holds o f)
  (hheld : r.Holds owner filter) (hlen : filter.length < MQTT_TOPIC_MAX)

include hok hbacked hheld hlen

theorem exactRouteUpsert_put (hexact : filterIsExact filter = true) :
    (r.exactRouteUpsert owner hop filter).RoutesOk ∧
      ∀ o h f, (r.exactRouteUpsert owner hop filter).HasRoute o h f ↔
        r.Put owner hop filter o h f := by
  unfold exactRouteUpsert
  rw [hexact, take_filter hlen]
  simp only [Bool.not_true, Bool.false_eq_true, if_false]
  split
  · next i hseek =>
      rw [exactUpsertSlot_eq_seek] at hseek
      have hcell := seek_inl hseek
      have hkey : r.exactKey i = some (owner, filter) := Cell.key_eq_some.mpr hcell
      obtain ⟨hstate, howner, hfilter⟩ := exactKey_some.mp hkey
      have hroute : { r.exact i with nextHopId := hop } = ⟨owner, hop, filter, .used⟩ := by
        dsimp only
        rw [howner, hfilter, hstate]
      rw [hroute]
      refine hok.putExact hexact (fun j hj ↦ hok.exact_once j i _ hj hkey)
        (fun k hk ↦ Option.some.inj (hk.symm.trans hkey)) ?_
      rw [← hcell, Function.update_eq_self]
      exact hok.reached
  · next i hseek =>
      rw [exactUpsertSlot_eq_seek] at hseek
      have hnot := hok.reached.not_used (k := (owner, filter)) hseek
      obtain ⟨hunused, pre, post, hprobe, hpre⟩ :=
        (seek_some hseek).resolve_left (by simp)
      refine hok.putExact hexact (fun j hj ↦ absurd (Cell.key_eq_some.mp hj) (hnot j))
        (fun k hk ↦ absurd (Cell.key_eq_some.mp hk) (hunused k)) ?_
      exact hok.reached.fill (k := (owner, filter)) hprobe hpre
  · next hseek =>
      rw [exactUpsertSlot_eq_seek] at hseek
      have hnot := hok.reached.not_used (k := (owner, filter)) hseek
      obtain ⟨i, hi⟩ := exists_free_of_holds hok.exact_once (r := r) (fun i k hk ↦
        hbacked _ _ _ (hasRoute_iff.mpr (.inl ⟨i, hk, rfl⟩))) hheld
        (fun j hj ↦ hnot j (Cell.key_eq_some.mp hj))
      obtain ⟨k, hk⟩ := used_of_seek_none hseek i (mem_probe i)
      exact absurd hk (Cell.key_eq_none.mp hi k)

theorem wildcardRouteUpsert_put (hwild : filterIsExact filter = false) :
    (r.wildcardRouteUpsert owner hop filter).RoutesOk ∧
      ∀ o h f, (r.wildcardRouteUpsert owner hop filter).HasRoute o h f ↔
        r.Put owner hop filter o h f := by
  unfold wildcardRouteUpsert
  rw [hwild, take_filter hlen]
  simp only [Bool.false_eq_true, if_false]
  split
  · next i hfind =>
      have hi : ((r.wildcard i).inUse = true ∧ (r.wildcard i).ownerId = owner) ∧
          (r.wildcard i).filter = filter := by
        simpa using List.find?_some hfind
      obtain ⟨⟨huse, howner⟩, hfilter⟩ := hi
      have hkey : r.wildcardKey i = some (owner, filter) :=
        wildcardKey_some.mpr ⟨huse, howner, hfilter⟩
      have hroute : { r.wildcard i with nextHopId := hop } = ⟨owner, hop, filter, true⟩ := by
        dsimp only
        rw [howner, hfilter, huse]
      rw [hroute]
      exact hok.putWildcard hwild (fun j hj ↦ hok.wildcard_once j i _ hj hkey)
        (fun k hk ↦ Option.some.inj (hk.symm.trans hkey))
  · next hfind =>
      have hnot : ∀ j, r.wildcardKey j ≠ some (owner, filter) := by
        intro j hj
        obtain ⟨huse, howner, hfilter⟩ := wildcardKey_some.mp hj
        have hj := List.find?_eq_none.mp hfind j (List.mem_finRange j)
        simp [huse, howner, hfilter] at hj
      split
      · next i hfree =>
          have hi : (r.wildcard i).inUse = false := by simpa using List.find?_some hfree
          refine hok.putWildcard hwild (fun j hj ↦ absurd hj (hnot j)) fun k hk ↦ ?_
          simp [wildcardKey, hi] at hk
      · next hfull =>
          obtain ⟨i, hi⟩ := exists_free_of_holds hok.wildcard_once (r := r) (fun i k hk ↦
            hbacked _ _ _ (hasRoute_iff.mpr (.inr ⟨i, hk, rfl⟩))) hheld hnot
          have huse := List.find?_eq_none.mp hfull i (List.mem_finRange i)
          simp only [wildcardKey, ite_eq_right_iff, reduceCtorEq, imp_false] at hi
          simp [hi] at huse

variable (hop) in
/-- The spec of `route_upsert_locked`. -/
theorem routeUpsert_put : (r.routeUpsert owner hop filter).RoutesOk ∧
    ∀ o h f, (r.routeUpsert owner hop filter).HasRoute o h f ↔ r.Put owner hop filter o h f := by
  unfold routeUpsert
  cases hfilter : filterIsExact filter with
  | true =>
      have hsame : ∀ r' : RouteTable cfg, r'.wildcardRouteUpsert owner hop filter = r' :=
        fun r' ↦ if_pos hfilter
      rw [hsame]
      exact exactRouteUpsert_put hok hbacked hheld hlen hfilter
  | false =>
      have hsame : r.exactRouteUpsert owner hop filter = r := if_pos (by simp [hfilter])
      rw [hsame]
      exact wildcardRouteUpsert_put hok hbacked hheld hlen hfilter

end

section

variable {node : RemoteNode cfg} {i : NodeSlot cfg}

variable (node) in
/-- The spec of `node_routes_refresh_locked`. -/
theorem nodeRoutesRefresh_put (hok : r.RoutesOk)
    (hbacked : ∀ o h f, r.HasRoute o h f → r.Holds o f)
    (hheld : ∀ j, (node.subs j).inUse = true → r.Holds node.ownerId (node.subs j).filter)
    (hlen : ∀ j, (node.subs j).inUse = true → (node.subs j).filter.length < MQTT_TOPIC_MAX) :
    (r.nodeRoutesRefresh node).RoutesOk ∧
      ∀ o h f, (r.nodeRoutesRefresh node).HasRoute o h f ↔
        if o = node.ownerId ∧ node.HasSub f then h = node.nextHopId else r.HasRoute o h f := by
  have hslots : ∀ slots : List (Fin cfg.remoteSubsPerNode),
      let r' := slots.foldl (fun r i ↦
        if (node.subs i).inUse then r.routeUpsert node.ownerId node.nextHopId (node.subs i).filter
        else r) r
      r'.RoutesOk ∧ ∀ o h f, r'.HasRoute o h f ↔
        if o = node.ownerId ∧ ∃ j ∈ slots, (node.subs j).inUse = true ∧ (node.subs j).filter = f
        then h = node.nextHopId else r.HasRoute o h f := by
    intro slots
    induction slots generalizing r with
    | nil => exact ⟨hok, by simp⟩
    | cons j slots ih =>
        dsimp only [List.foldl_cons]
        split_ifs with huse
        · obtain ⟨hok', hroutes⟩ := routeUpsert_put node.nextHopId hok hbacked
            (hheld j huse) (hlen j huse)
          have hholds : ∀ o f, (r.routeUpsert node.ownerId node.nextHopId
              (node.subs j).filter).Holds o f ↔ r.Holds o f :=
            fun _ _ ↦ holds_congr routeUpsert_nodes
          have hrest := ih hok' (fun o h f hroute ↦ (hholds o f).mpr ?_)
            (fun k hk ↦ (hholds _ _).mpr (hheld k hk))
          · refine ⟨hrest.1, fun o h f ↦ ?_⟩
            rw [hrest.2, hroutes, Put]
            by_cases howner : o = node.ownerId
            · by_cases hf : f = (node.subs j).filter
              · simp [howner, hf, huse]
              · simp [howner, hf, Ne.symm hf]
            · simp [howner]
          · have hroute := (hroutes o h f).mp hroute
            unfold Put at hroute
            split_ifs at hroute with hsame
            · cases hsame
              exact hheld j huse
            · exact hbacked o h f hroute
        · obtain ⟨hok', hroutes⟩ := ih hok hbacked hheld
          refine ⟨hok', fun o h f ↦ ?_⟩
          rw [hroutes]
          simp [huse]
  obtain ⟨hok', hroutes⟩ := hslots (List.finRange cfg.remoteSubsPerNode)
  refine ⟨hok', fun o h f ↦ (hroutes o h f).trans (Iff.of_eq (if_congr ?_ rfl rfl))⟩
  simp [RemoteNode.HasSub]

end

/-! ## The invariant -/

/-- A subscription is in use, and its owner's next hop is `h`. -/
def Wants (r : RouteTable cfg) (o h : NodeId) (f : CStr) : Prop :=
  ∃ i, (r.nodes i).inUse = true ∧ (r.nodes i).ownerId = o ∧ (r.nodes i).nextHopId = h ∧
    (r.nodes i).HasSub f

/-- The nodes by themselves: every owner has one node, and in a node every filter
has one slot. -/
structure NodesOk (r : RouteTable cfg) : Prop where
  owner_once : ∀ i j, (r.nodes i).inUse = true → (r.nodes j).inUse = true →
    (r.nodes i).ownerId = (r.nodes j).ownerId → i = j
  sub_once : ∀ i j k, ((r.nodes i).subs j).inUse = true → ((r.nodes i).subs k).inUse = true →
    ((r.nodes i).subs j).filter = ((r.nodes i).subs k).filter → j = k
  fits : ∀ i j, ((r.nodes i).subs j).inUse = true →
    ((r.nodes i).subs j).filter.length < MQTT_TOPIC_MAX

/-- The routes mirror the subscriptions: `owner` and `filter` are in the table for
such filters exactly once if the filter is an in-use subscription of the owner's
node, and not otherwise, with the next hop of the node. -/
structure Mirrors (r : RouteTable cfg) : Prop where
  nodes : r.NodesOk
  tables : r.RoutesOk
  routes : ∀ o h f, r.HasRoute o h f ↔ r.Wants o h f

theorem NodesOk.congr (hok : r.NodesOk) (hnodes : r'.nodes = r.nodes) : r'.NodesOk :=
  ⟨hnodes ▸ hok.owner_once, hnodes ▸ hok.sub_once, hnodes ▸ hok.fits⟩

theorem wants_congr (hnodes : r'.nodes = r.nodes) : r'.Wants o h f ↔ r.Wants o h f := by
  unfold Wants
  rw [hnodes]

theorem holds_iff_wants : r.Holds o f ↔ ∃ h, r.Wants o h f := by
  constructor
  · rintro ⟨i, j, huse, howner, hsub, hfilter⟩
    exact ⟨_, i, huse, howner, rfl, j, hsub, hfilter⟩
  · rintro ⟨h, i, huse, howner, -, j, hsub, hfilter⟩
    exact ⟨i, j, huse, howner, hsub, hfilter⟩

theorem mirrors_init : (RouteTable.init cfg).Mirrors where
  nodes := ⟨fun _ _ h ↦ (nomatch h), fun _ _ _ h ↦ (nomatch h), fun _ _ h ↦ (nomatch h)⟩
  tables := routesOk_init
  routes o h f := by
    constructor
    · intro hroute
      cases hroute with
      | exact i huse => cases huse
      | wildcard i huse => cases huse
    · rintro ⟨i, huse, -⟩
      cases huse

section

variable {node : RemoteNode cfg} {i : NodeSlot cfg}

/-- The node of an owner, or a free one, gets a new value. -/
theorem NodesOk.set (hok : r.NodesOk)
    (howner : node.inUse = true → ∀ j, (r.nodes j).inUse = true →
      (r.nodes j).ownerId = node.ownerId → j = i)
    (honce : ∀ j k, (node.subs j).inUse = true → (node.subs k).inUse = true →
      (node.subs j).filter = (node.subs k).filter → j = k)
    (hfits : ∀ j, (node.subs j).inUse = true → (node.subs j).filter.length < MQTT_TOPIC_MAX) :
    NodesOk { r with nodes := Function.update r.nodes i node } := by
  refine ⟨fun k k' huse huse' heq ↦ ?_, fun k j j' huse huse' heq ↦ ?_, fun k j huse ↦ ?_⟩
  · dsimp only at huse huse' heq
    by_cases hk : k = i
    · subst hk
      by_cases hk' : k' = k
      · exact hk'.symm
      · rw [Function.update_self] at huse heq
        rw [Function.update_of_ne hk'] at huse' heq
        exact (howner huse k' huse' heq.symm).symm
    · rw [Function.update_of_ne hk] at huse heq
      by_cases hk' : k' = i
      · subst hk'
        rw [Function.update_self] at huse' heq
        exact howner huse' k huse heq
      · rw [Function.update_of_ne hk'] at huse' heq
        exact hok.owner_once k k' huse huse' heq
  · dsimp only at huse huse' heq
    by_cases hk : k = i
    · subst hk
      rw [Function.update_self] at huse huse' heq
      exact honce j j' huse huse' heq
    · rw [Function.update_of_ne hk] at huse huse' heq
      exact hok.sub_once k j j' huse huse' heq
  · dsimp only at huse ⊢
    by_cases hk : k = i
    · subst hk
      rw [Function.update_self] at huse ⊢
      exact hfits j huse
    · rw [Function.update_of_ne hk] at huse ⊢
      exact hok.fits k j huse

theorem wants_iff (hok : r.NodesOk) (huse : (r.nodes i).inUse = true) : r.Wants o h f ↔
    if o = (r.nodes i).ownerId then h = (r.nodes i).nextHopId ∧ (r.nodes i).HasSub f
    else r.Wants o h f := by
  split_ifs with howner
  · constructor
    · rintro ⟨j, hj, hjo, rfl, hsub⟩
      obtain rfl := hok.owner_once i j huse hj (howner.symm.trans hjo.symm)
      exact ⟨rfl, hsub⟩
    · rintro ⟨rfl, hsub⟩
      exact ⟨i, huse, howner.symm, rfl, hsub⟩
  · exact Iff.rfl

/-- The node of an owner, or a free one, gets a new value for the same owner. -/
theorem set_wants (hnode : node.inUse = true)
    (howner : ∀ j, (r.nodes j).inUse = true → (r.nodes j).ownerId = node.ownerId → j = i)
    (hi : (r.nodes i).inUse = true → (r.nodes i).ownerId = node.ownerId) :
    Wants { r with nodes := Function.update r.nodes i node } o h f ↔
      if o = node.ownerId then h = node.nextHopId ∧ node.HasSub f else r.Wants o h f := by
  constructor
  · rintro ⟨j, huse, hjo, hjh, hsub⟩
    dsimp only at huse hjo hjh hsub
    by_cases hj : j = i
    · subst hj
      rw [Function.update_self] at hjo hjh hsub
      rw [if_pos hjo.symm]
      exact ⟨hjh.symm, hsub⟩
    · rw [Function.update_of_ne hj] at huse hjo hjh hsub
      have hne : o ≠ node.ownerId := fun ho ↦ hj (howner j huse (hjo.trans ho))
      rw [if_neg hne]
      exact ⟨j, huse, hjo, hjh, hsub⟩
  · split_ifs with ho
    · rintro ⟨rfl, hsub⟩
      refine ⟨i, ?_⟩
      dsimp only
      rw [Function.update_self]
      exact ⟨hnode, ho.symm, rfl, hsub⟩
    · rintro ⟨j, huse, hjo, hjh, hsub⟩
      have hj : j ≠ i := by
        rintro rfl
        exact ho (hjo.symm.trans (hi huse))
      refine ⟨j, ?_⟩
      dsimp only
      rw [Function.update_of_ne hj]
      exact ⟨huse, hjo, hjh, hsub⟩

end

/-! ## The operations -/

theorem hasRoute_setNodes {nodes : NodeSlot cfg → RemoteNode cfg} :
    HasRoute { r with nodes := nodes } o h f ↔ r.HasRoute o h f := by
  rw [hasRoute_iff, hasRoute_iff]
  rfl

theorem RoutesOk.setNodes {nodes : NodeSlot cfg → RemoteNode cfg} (hok : r.RoutesOk) :
    RoutesOk { r with nodes := nodes } :=
  ⟨hok.exact_plain, hok.exact_once, hok.reached, hok.wildcard_plain, hok.wildcard_once⟩

theorem findNode_some {i : NodeSlot cfg} (hfind : r.findNode owner = some i) :
    (r.nodes i).inUse = true ∧ (r.nodes i).ownerId = owner := by
  simpa using List.find?_some hfind

theorem findNode_none (hfind : r.findNode owner = none) (i : NodeSlot cfg)
    (huse : (r.nodes i).inUse = true) : (r.nodes i).ownerId ≠ owner := by
  have hi := List.find?_eq_none.mp hfind i (List.mem_finRange i)
  simpa [huse] using hi

/-- The node of the owner: the one there is, or one without filters. -/
theorem Mirrors.findOrCreateNode (hr : r.Mirrors) {i : NodeSlot cfg}
    (hnode : r.findOrCreateNode owner = some (i, r')) :
    r'.Mirrors ∧ (r'.nodes i).inUse = true ∧ (r'.nodes i).ownerId = owner ∧
      (r.findNode owner = some i ∧ r' = r ∨ (r'.nodes i).freeSub ≠ none) := by
  obtain ⟨howner, ⟨hfind, rfl⟩ | ⟨hfind, hfree, rfl⟩⟩ := findOrCreateNode_cases hnode
  · exact ⟨hr, (findNode_some hfind).1, howner, .inl ⟨hfind, rfl⟩⟩
  · set node : RemoteNode cfg := { RemoteNode.zeroed cfg with
      ownerId := owner
      inUse := true } with hdef
    have hfree : (r.nodes i).inUse = false := by simpa using List.find?_some hfree
    have hnosub : ∀ f, ¬ node.HasSub f := fun f ⟨j, huse, _⟩ ↦ (nomatch huse)
    have hothers : ∀ j, (r.nodes j).inUse = true → (r.nodes j).ownerId = owner → j = i :=
      fun j huse hj ↦ absurd hj (findNode_none hfind j huse)
    refine ⟨⟨hr.nodes.set (fun _ ↦ hothers) (fun j k huse ↦ (nomatch huse))
      (fun j huse ↦ (nomatch huse)), hr.tables.setNodes, fun o h f ↦ ?_⟩, ?_, howner, .inr ?_⟩
    · rw [hasRoute_setNodes, set_wants rfl hothers fun huse ↦ ?_, hr.routes]
      · split_ifs with ho
        · refine iff_of_false ?_ fun hsub ↦ hnosub f hsub.2
          rintro ⟨j, huse, hjo, -⟩
          exact findNode_none hfind j huse (hjo.trans ho)
        · exact Iff.rfl
      · rw [hfree] at huse
        cases huse
    · dsimp only
      rw [Function.update_self]
    · dsimp only
      rw [Function.update_self]
      have hslot : (node.freeSub).isSome = true :=
        List.find?_isSome.mpr ⟨⟨0, cfg.remoteSubsPerNode_pos⟩, List.mem_finRange _, rfl⟩
      exact Option.isSome_iff_ne_none.mp hslot

/-- The filters of a node after a slot has been filled. -/
theorem hasSub_set {node : RemoteNode cfg} {j : Fin cfg.remoteSubsPerNode}
    (hslot : (node.findSub filter).or node.freeSub = some j) :
    RemoteNode.HasSub { node with subs := Function.update node.subs j ⟨filter, qos, true⟩ } f ↔
      f = filter ∨ node.HasSub f := by
  constructor
  · rintro ⟨k, huse, hfilter⟩
    dsimp only at huse hfilter
    by_cases hk : k = j
    · subst hk
      rw [Function.update_self] at hfilter
      exact .inl hfilter.symm
    · rw [Function.update_of_ne hk] at huse hfilter
      exact .inr ⟨k, huse, hfilter⟩
  · rintro (rfl | ⟨k, huse, hfilter⟩)
    · exact ⟨j, by simp⟩
    · refine ⟨k, ?_⟩
      dsimp only
      by_cases hk : k = j
      · subst hk
        rw [Function.update_self]
        exact ⟨rfl, (findSub_or_freeSub hslot huse).symm.trans hfilter⟩
      · rw [Function.update_of_ne hk]
        exact ⟨huse, hfilter⟩

/-- The slot for a filter is the only one that holds it. -/
theorem findSub_or_freeSub_once {node : RemoteNode cfg} {j k : Fin cfg.remoteSubsPerNode}
    (honce : ∀ j k, (node.subs j).inUse = true → (node.subs k).inUse = true →
      (node.subs j).filter = (node.subs k).filter → j = k)
    (hslot : (node.findSub filter).or node.freeSub = some j)
    (huse : (node.subs k).inUse = true) (hfilter : (node.subs k).filter = filter) : k = j := by
  cases hfind : node.findSub filter with
  | some j' =>
      rw [hfind, Option.some_or, Option.some.injEq] at hslot
      subst hslot
      have hj : (node.subs j').inUse = true ∧ (node.subs j').filter = filter := by
        simpa using List.find?_some hfind
      exact honce k j' huse hj.1 (hfilter.trans hj.2.symm)
  | none =>
      have hk := List.find?_eq_none.mp hfind k (List.mem_finRange k)
      simp [huse, hfilter] at hk

theorem sub_once_set {node : RemoteNode cfg} {j : Fin cfg.remoteSubsPerNode}
    (honce : ∀ j k, (node.subs j).inUse = true → (node.subs k).inUse = true →
      (node.subs j).filter = (node.subs k).filter → j = k)
    (hslot : (node.findSub filter).or node.freeSub = some j)
    {subs : Fin cfg.remoteSubsPerNode → RemoteSub}
    (hsubs : subs = Function.update node.subs j ⟨filter, qos, true⟩) (k k' : Fin cfg.remoteSubsPerNode)
    (huse : (subs k).inUse = true) (huse' : (subs k').inUse = true)
    (heq : (subs k).filter = (subs k').filter) : k = k' := by
  subst hsubs
  by_cases hk : k = j
  · subst hk
    by_cases hk' : k' = k
    · exact hk'.symm
    · rw [Function.update_self, Function.update_of_ne hk'] at heq
      rw [Function.update_of_ne hk'] at huse'
      exact (findSub_or_freeSub_once honce hslot huse' heq.symm).symm
  · rw [Function.update_of_ne hk] at huse heq
    by_cases hk' : k' = j
    · subst hk'
      rw [Function.update_self] at heq
      exact findSub_or_freeSub_once honce hslot huse heq
    · rw [Function.update_of_ne hk'] at huse' heq
      exact honce k k' huse huse' heq

/-- A notification does not change the next hop of a node in which it gets no slot. -/
def KeepsHop (r : RouteTable cfg) (owner : NodeId) (filter : CStr) (hop : NodeId) : Prop :=
  ∀ i, r.findNode owner = some i → (r.nodes i).findSub filter = none →
    (r.nodes i).freeSub = none → (r.nodes i).RouteChanges hop → (r.nodes i).nextHopId = hop

theorem Mirrors.remoteSubscribe (hr : r.Mirrors) (hlen : filter.length < MQTT_TOPIC_MAX)
    (hkeeps : r.KeepsHop owner filter hop) : (r.remoteSubscribe owner filter qos hop).2.Mirrors := by
  unfold RouteTable.remoteSubscribe
  split
  · exact hr
  · next i r₁ hnode =>
      obtain ⟨hr₁, huse, howner, hcase⟩ := hr.findOrCreateNode hnode
      dsimp only
      split
      · next hnone =>
          rw [RemoteNode.heardFrom_findSub, RemoteNode.heardFrom_freeSub,
            Option.or_eq_none_iff] at hnone
          obtain ⟨hfind, rfl⟩ := hcase.resolve_right (fun hne ↦ hne hnone.2)
          have hsame : (r₁.nodes i).heardFrom hop = r₁.nodes i := by
            unfold RemoteNode.heardFrom
            split_ifs with hchanges
            · rw [← hkeeps i hfind hnone.1 hnone.2 hchanges]
            · rfl
          rw [hsame, Function.update_eq_self]
          exact hr
      · next j hslot =>
          rw [take_filter hlen]
          set heard := (r₁.nodes i).heardFrom hop with hheard
          set node : RemoteNode cfg :=
            { heard with subs := Function.update heard.subs j ⟨filter, qos, true⟩ } with hdef
          have hsubs : heard.subs = (r₁.nodes i).subs := RemoteNode.heardFrom_subs
          have hnodeUse : node.inUse = true := by
            rw [← huse]
            simp only [hdef, hheard, RemoteNode.heardFrom]
            split_ifs <;> rfl
          have hnodeOwner : node.ownerId = owner :=
            RemoteNode.heardFrom_ownerId.trans howner
          have hsub : ∀ f, node.HasSub f ↔ f = filter ∨ (r₁.nodes i).HasSub f := by
            intro f
            rw [hasSub_set hslot]
            simp only [RemoteNode.HasSub, hsubs]
          have hothers : ∀ k, (r₁.nodes k).inUse = true → (r₁.nodes k).ownerId = node.ownerId →
              k = i := fun k hk hko ↦
            hr₁.nodes.owner_once k i hk huse (hko.trans (hnodeOwner.trans howner.symm))
          have hnodeFits : ∀ k, (node.subs k).inUse = true →
              (node.subs k).filter.length < MQTT_TOPIC_MAX := by
            intro k hk
            simp only [hdef] at hk ⊢
            by_cases hkj : k = j
            · subst hkj
              rwa [Function.update_self]
            · rw [Function.update_of_ne hkj, hsubs] at hk ⊢
              exact hr₁.nodes.fits i k hk
          have hnodes : NodesOk { r₁ with nodes := Function.update r₁.nodes i node } := by
            refine hr₁.nodes.set (fun _ ↦ hothers) ?_ hnodeFits
            exact sub_once_set (hsubs ▸ hr₁.nodes.sub_once i) hslot rfl
          have hwants : ∀ o h f, Wants { r₁ with nodes := Function.update r₁.nodes i node } o h f ↔
              if o = owner then h = node.nextHopId ∧ node.HasSub f else r₁.Wants o h f := by
            intro o h f
            rw [set_wants hnodeUse hothers fun _ ↦ howner.trans hnodeOwner.symm, hnodeOwner]
          have hold : ∀ h f, r₁.HasRoute owner h f ↔
              h = (r₁.nodes i).nextHopId ∧ (r₁.nodes i).HasSub f := by
            intro h f
            rw [hr₁.routes, wants_iff hr₁.nodes huse, if_pos howner.symm]
          have hbacked : ∀ o h f, HasRoute { r₁ with nodes := Function.update r₁.nodes i node } o h f →
              Holds { r₁ with nodes := Function.update r₁.nodes i node } o f := by
            intro o h f hroute
            rw [hasRoute_setNodes] at hroute
            rw [holds_iff_wants]
            by_cases ho : o = owner
            · subst ho
              refine ⟨node.nextHopId, (hwants _ _ _).mpr ?_⟩
              rw [if_pos rfl]
              exact ⟨rfl, (hsub f).mpr (.inr ((hold h f).mp hroute).2)⟩
            · refine ⟨h, (hwants _ _ _).mpr ?_⟩
              rw [if_neg ho]
              exact (hr₁.routes o h f).mp hroute
          have hheld : ∀ f, node.HasSub f →
              Holds { r₁ with nodes := Function.update r₁.nodes i node } owner f := by
            intro f hf
            refine holds_iff_wants.mpr ⟨node.nextHopId, (hwants _ _ _).mpr ?_⟩
            rw [if_pos rfl]
            exact ⟨rfl, hf⟩
          split_ifs with hchanges
          · obtain ⟨hok, hroutes⟩ := nodeRoutesRefresh_put node hr₁.tables.setNodes hbacked
              (fun k hk ↦ hnodeOwner.symm ▸ hheld _ ⟨k, hk, rfl⟩) hnodeFits
            refine ⟨hnodes.congr nodeRoutesRefresh_nodes, hok, fun o h f ↦ ?_⟩
            rw [hroutes, wants_congr nodeRoutesRefresh_nodes, hwants, hnodeOwner, hasRoute_setNodes]
            by_cases ho : o = owner
            · subst ho
              by_cases hf : node.HasSub f
              · simp [hf]
              · have hf' : ¬ (r₁.nodes i).HasSub f := fun hf' ↦ hf ((hsub f).mpr (.inr hf'))
                simp [hf, hold, hf']
            · simp [ho, hr₁.routes]
          · have hhop : node.nextHopId = (r₁.nodes i).nextHopId := by
              have hheard : heard = r₁.nodes i := if_neg (by simpa using hchanges)
              exact (congrArg RemoteNode.nextHopId hheard : heard.nextHopId = _)
            obtain ⟨hok, hroutes⟩ := routeUpsert_put node.nextHopId hr₁.tables.setNodes hbacked
              (hheld filter ((hsub filter).mpr (.inl rfl))) hlen
            refine ⟨hnodes.congr routeUpsert_nodes, hok, fun o h f ↦ ?_⟩
            rw [hroutes, wants_congr routeUpsert_nodes, hwants, Put, hasRoute_setNodes]
            by_cases ho : o = owner
            · subst ho
              by_cases hf : f = filter
              · simp [hf, hsub]
              · simp [hf, hsub, hold, hhop]
            · simp [ho, hr₁.routes]

section

variable (P : NodeId → NodeId → CStr → Prop) [∀ o h f, Decidable (P o h f)]

/-- The routes that satisfy `P` are taken out. -/
def dropRoutes (r : RouteTable cfg) : RouteTable cfg :=
  { r with
    exact := fun i ↦
      if (r.exact i).state = .used ∧ P (r.exact i).ownerId (r.exact i).nextHopId (r.exact i).filter then
        { r.exact i with state := .deleted }
      else r.exact i
    wildcard := fun i ↦
      if (r.wildcard i).inUse ∧
          P (r.wildcard i).ownerId (r.wildcard i).nextHopId (r.wildcard i).filter then
        { r.wildcard i with inUse := false }
      else r.wildcard i }

theorem routeRemove_eq :
    r.routeRemove owner filter = r.dropRoutes fun o _ f ↦ o = owner ∧ f = filter := rfl

variable {P}

theorem dropRoutes_exact {i : RouteSlot cfg} : ((r.dropRoutes P).exact i).state = .used ↔
    (r.exact i).state = .used ∧
      ¬ P (r.exact i).ownerId (r.exact i).nextHopId (r.exact i).filter := by
  dsimp only [dropRoutes]
  split_ifs with hdrop
  · simp [hdrop.2]
  · exact ⟨fun huse ↦ ⟨huse, fun hP ↦ hdrop ⟨huse, hP⟩⟩, fun h ↦ h.1⟩

theorem dropRoutes_wildcard {i : RouteSlot cfg} : ((r.dropRoutes P).wildcard i).inUse = true ↔
    (r.wildcard i).inUse = true ∧
      ¬ P (r.wildcard i).ownerId (r.wildcard i).nextHopId (r.wildcard i).filter := by
  dsimp only [dropRoutes]
  split_ifs with hdrop
  · simp [hdrop.2]
  · exact ⟨fun huse ↦ ⟨huse, fun hP ↦ hdrop ⟨huse, hP⟩⟩, fun h ↦ h.1⟩

theorem dropRoutes_exact_frame {i : RouteSlot cfg} :
    ((r.dropRoutes P).exact i).ownerId = (r.exact i).ownerId ∧
      ((r.dropRoutes P).exact i).nextHopId = (r.exact i).nextHopId ∧
      ((r.dropRoutes P).exact i).filter = (r.exact i).filter ∧
      (((r.dropRoutes P).exact i).state = .empty → (r.exact i).state = .empty) := by
  dsimp only [dropRoutes]
  split_ifs <;> simp

theorem dropRoutes_wildcard_frame {i : RouteSlot cfg} :
    ((r.dropRoutes P).wildcard i).ownerId = (r.wildcard i).ownerId ∧
      ((r.dropRoutes P).wildcard i).nextHopId = (r.wildcard i).nextHopId ∧
      ((r.dropRoutes P).wildcard i).filter = (r.wildcard i).filter := by
  dsimp only [dropRoutes]
  split_ifs <;> simp

theorem dropRoutes_hasRoute : (r.dropRoutes P).HasRoute o h f ↔ r.HasRoute o h f ∧ ¬ P o h f := by
  constructor
  · intro hroute
    cases hroute with
    | exact i huse =>
        obtain ⟨howner, hhop, hfilter, -⟩ := dropRoutes_exact_frame (r := r) (P := P) (i := i)
        obtain ⟨huse, hP⟩ := dropRoutes_exact.mp huse
        rw [howner, hhop, hfilter]
        exact ⟨.exact i huse, hP⟩
    | wildcard i huse =>
        obtain ⟨howner, hhop, hfilter⟩ := dropRoutes_wildcard_frame (r := r) (P := P) (i := i)
        obtain ⟨huse, hP⟩ := dropRoutes_wildcard.mp huse
        rw [howner, hhop, hfilter]
        exact ⟨.wildcard i huse, hP⟩
  · rintro ⟨hroute, hP⟩
    cases hroute with
    | exact i huse =>
        obtain ⟨howner, hhop, hfilter, -⟩ := dropRoutes_exact_frame (r := r) (P := P) (i := i)
        rw [← howner, ← hhop, ← hfilter]
        exact .exact i (dropRoutes_exact.mpr ⟨huse, hP⟩)
    | wildcard i huse =>
        obtain ⟨howner, hhop, hfilter⟩ := dropRoutes_wildcard_frame (r := r) (P := P) (i := i)
        rw [← howner, ← hhop, ← hfilter]
        exact .wildcard i (dropRoutes_wildcard.mpr ⟨huse, hP⟩)

theorem dropRoutes_cell_used {i : RouteSlot cfg} {k : NodeId × CStr}
    (hi : (r.dropRoutes P).exactCell i = .used k) : r.exactCell i = .used k := by
  obtain ⟨howner, -, hfilter, -⟩ := dropRoutes_exact_frame (r := r) (P := P) (i := i)
  obtain ⟨huse, hko, hkf⟩ := exactCell_used.mp hi
  rw [howner] at hko
  rw [hfilter] at hkf
  exact exactCell_used.mpr ⟨(dropRoutes_exact.mp huse).1, hko, hkf⟩

theorem dropRoutes_cell_empty {i : RouteSlot cfg} (hi : (r.dropRoutes P).exactCell i = .empty) :
    r.exactCell i = .empty := by
  rw [exactCell_empty] at hi ⊢
  exact dropRoutes_exact_frame.2.2.2 hi

theorem RoutesOk.dropRoutes (hok : r.RoutesOk) : (r.dropRoutes P).RoutesOk := by
  refine hok.remove (fun i k ↦ dropRoutes_cell_used) (fun i ↦ dropRoutes_cell_empty)
    fun i k hi ↦ ?_
  obtain ⟨howner, -, hfilter⟩ := dropRoutes_wildcard_frame (r := r) (P := P) (i := i)
  obtain ⟨huse, hko, hkf⟩ := wildcardKey_some.mp hi
  rw [howner] at hko
  rw [hfilter] at hkf
  exact wildcardKey_some.mpr ⟨(dropRoutes_wildcard.mp huse).1, hko, hkf⟩

end

theorem Mirrors.clearNodeIfEmpty (hr : r.Mirrors) (i : NodeSlot cfg) :
    (r.clearNodeIfEmpty i).Mirrors := by
  unfold RouteTable.clearNodeIfEmpty
  split_ifs with hany
  · exact hr
  · have hnosub : ∀ f, ¬ (r.nodes i).HasSub f := by
      rintro f ⟨j, huse, -⟩
      exact hany (List.any_eq_true.mpr ⟨j, List.mem_finRange j, huse⟩)
    refine ⟨hr.nodes.set (fun huse ↦ (nomatch huse)) (fun j k huse ↦ (nomatch huse))
      (fun j huse ↦ (nomatch huse)), hr.tables.setNodes, fun o h f ↦ ?_⟩
    rw [hasRoute_setNodes, hr.routes]
    constructor
    · rintro ⟨j, huse, howner, hhop, hsub⟩
      have hj : j ≠ i := by
        rintro rfl
        exact hnosub f hsub
      refine ⟨j, ?_⟩
      dsimp only
      rw [Function.update_of_ne hj]
      exact ⟨huse, howner, hhop, hsub⟩
    · rintro ⟨j, huse, howner, hhop, hsub⟩
      dsimp only at huse howner hhop hsub
      by_cases hj : j = i
      · subst hj
        rw [Function.update_self] at huse
        cases huse
      · rw [Function.update_of_ne hj] at huse howner hhop hsub
        exact ⟨j, huse, howner, hhop, hsub⟩

theorem Mirrors.remoteUnsubscribe (hr : r.Mirrors) :
    (r.remoteUnsubscribe owner filter).2.Mirrors := by
  unfold RouteTable.remoteUnsubscribe
  split
  · exact hr
  · next i hfind =>
      obtain ⟨huse, howner⟩ := findNode_some hfind
      dsimp only
      refine Mirrors.clearNodeIfEmpty ?_ i
      set subs : Fin cfg.remoteSubsPerNode → RemoteSub := fun j ↦
        if ((r.nodes i).subs j).inUse = true ∧ ((r.nodes i).subs j).filter = filter then
          { (r.nodes i).subs j with inUse := false }
        else (r.nodes i).subs j with hsubs
      set node : RemoteNode cfg := { r.nodes i with subs := subs } with hnode
      have hin : ∀ j, (subs j).inUse = true ↔
          ((r.nodes i).subs j).inUse = true ∧ ((r.nodes i).subs j).filter ≠ filter := by
        intro j
        simp only [hsubs]
        split_ifs with hdrop
        · simp [hdrop.2]
        · exact ⟨fun hj ↦ ⟨hj, fun hf ↦ hdrop ⟨hj, hf⟩⟩, fun hj ↦ hj.1⟩
      have hfilter : ∀ j, (subs j).filter = ((r.nodes i).subs j).filter := by
        intro j
        simp only [hsubs]
        split_ifs <;> rfl
      have hsub : ∀ f, node.HasSub f ↔ (r.nodes i).HasSub f ∧ f ≠ filter := by
        intro f
        constructor
        · rintro ⟨j, hj, rfl⟩
          obtain ⟨hj, hne⟩ := (hin j).mp hj
          refine ⟨⟨j, hj, (hfilter j).symm⟩, ?_⟩
          rwa [← hfilter j] at hne
        · rintro ⟨⟨j, hj, rfl⟩, hne⟩
          exact ⟨j, (hin j).mpr ⟨hj, hne⟩, hfilter j⟩
      have hothers : ∀ k, (r.nodes k).inUse = true → (r.nodes k).ownerId = node.ownerId → k = i :=
        fun k hk hko ↦ hr.nodes.owner_once k i hk huse hko
      have hnodes : NodesOk { r with nodes := Function.update r.nodes i node } := by
        refine hr.nodes.set (fun _ ↦ hothers) (fun j k hj hk heq ↦ ?_) fun j hj ↦ ?_
        · exact hr.nodes.sub_once i j k ((hin j).mp hj).1 ((hin k).mp hk).1
            ((hfilter j).symm.trans (heq.trans (hfilter k)))
        · exact (congrArg List.length (hfilter j)).trans_lt (hr.nodes.fits i j ((hin j).mp hj).1)
      have hnodeUse : node.inUse = true := huse
      have hnodeOwner : node.ownerId = owner := howner
      have hwants : ∀ o h f, Wants { r with nodes := Function.update r.nodes i node } o h f ↔
          r.Wants o h f ∧ ¬ (o = owner ∧ f = filter) := by
        intro o h f
        rw [set_wants hnodeUse hothers fun _ ↦ rfl, wants_iff hr.nodes huse, howner, hsub]
        by_cases ho : o = owner
        · simp [ho, hnode, and_assoc]
        · simp [ho]
      split_ifs with hchanged
      · rw [routeRemove_eq]
        refine ⟨hnodes.congr rfl, hr.tables.setNodes.dropRoutes, fun o h f ↦ ?_⟩
        rw [dropRoutes_hasRoute, hasRoute_setNodes, hr.routes, ← hwants]
        exact Iff.rfl
      · refine ⟨hnodes, hr.tables.setNodes, fun o h f ↦ ?_⟩
        rw [hasRoute_setNodes, hr.routes, hwants]
        refine (and_iff_left_of_imp ?_).symm
        rintro ⟨k, hk, hko, -, hksub⟩ ⟨rfl, rfl⟩
        obtain rfl := hothers k hk (hko.trans hnodeOwner.symm)
        obtain ⟨j, hj, hjf⟩ := hksub
        refine hchanged (List.find?_isSome.mpr ⟨j, List.mem_finRange j, ?_⟩)
        simp [hj, hjf]

/-- The node of the broker and those behind it go, and their routes with them. -/
theorem Mirrors.removeNode (hr : r.Mirrors) : (r.removeNode id).Mirrors := by
  have hgone : ∀ i, ((r.removeNode id).nodes i).inUse = true →
      (r.removeNode id).nodes i = r.nodes i ∧
        ¬ ((r.nodes i).ownerId = id ∨ (r.nodes i).nextHopId = id) := by
    intro i huse
    dsimp only [RouteTable.removeNode] at huse ⊢
    split_ifs at huse ⊢ with hdrop
    · cases huse
    · exact ⟨rfl, fun hid ↦ hdrop ⟨huse, hid⟩⟩
  have hsame : ∀ i, (r.removeNode id).nodes i = r.nodes i ∨
      (r.removeNode id).nodes i = .zeroed cfg := by
    intro i
    dsimp only [RouteTable.removeNode]
    split_ifs
    · exact .inr rfl
    · exact .inl rfl
  have htables : (r.removeNode id).RoutesOk :=
    (hr.tables.dropRoutes (P := fun o h _ ↦ o = id ∨ h = id)).setNodes
  refine ⟨⟨fun i j hi hj heq ↦ ?_, fun i j k hj hk heq ↦ ?_, fun i j hj ↦ ?_⟩, htables,
    fun o h f ↦ ?_⟩
  · obtain ⟨hi', -⟩ := hgone i hi
    obtain ⟨hj', -⟩ := hgone j hj
    rw [hi'] at hi heq
    rw [hj'] at hj heq
    exact hr.nodes.owner_once i j hi hj heq
  · rcases hsame i with hi | hi
    · rw [hi] at hj hk heq
      exact hr.nodes.sub_once i j k hj hk heq
    · rw [hi] at hj
      cases hj
  · rcases hsame i with hi | hi
    · rw [hi] at hj ⊢
      exact hr.nodes.fits i j hj
    · rw [hi] at hj
      cases hj
  · have hroutes : (r.removeNode id).HasRoute o h f ↔
        (r.dropRoutes fun o h _ ↦ o = id ∨ h = id).HasRoute o h f :=
      hasRoute_setNodes (r := r.dropRoutes fun o h _ ↦ o = id ∨ h = id)
    rw [hroutes, dropRoutes_hasRoute, hr.routes]
    constructor
    · rintro ⟨⟨i, huse, rfl, rfl, hsub⟩, hne⟩
      have hi : (r.removeNode id).nodes i = r.nodes i := if_neg fun hdrop ↦ hne hdrop.2
      exact ⟨i, by rw [hi]; exact ⟨huse, rfl, rfl, hsub⟩⟩
    · rintro ⟨i, huse, howner, hhop, hsub⟩
      obtain ⟨hi, hne⟩ := hgone i huse
      rw [hi] at huse howner hhop hsub
      subst howner hhop
      exact ⟨⟨i, huse, rfl, rfl, hsub⟩, hne⟩

/-! ## Runs -/

/-- A call of one of the three functions that change the table. -/
inductive Call where
  | subscribe (owner : NodeId) (filter : CStr) (qos : UInt8) (hop : NodeId)
  | unsubscribe (owner : NodeId) (filter : CStr)
  | removeNode (id : NodeId)

def call (r : RouteTable cfg) : Call → RouteTable cfg
  | .subscribe owner filter qos hop => (r.remoteSubscribe owner filter qos hop).2
  | .unsubscribe owner filter => (r.remoteUnsubscribe owner filter).2
  | .removeNode id => r.removeNode id

/-- A filter that is stored whole, and no new next hop without a slot for the filter. -/
def KeepsUp (r : RouteTable cfg) : Call → Prop
  | .subscribe owner filter _ hop => filter.length < MQTT_TOPIC_MAX ∧ r.KeepsHop owner filter hop
  | _ => True

/-- The tables after calls that all satisfy `C`. -/
inductive Called (C : RouteTable cfg → Call → Prop) : RouteTable cfg → Prop where
  | init : Called C (RouteTable.init cfg)
  | call {r : RouteTable cfg} (h : Called C r) {c : Call} (hc : C r c) : Called C (r.call c)

/-- The exact and the wildcard routes of `owner` for `filter`. -/
def ExactFor (r : RouteTable cfg) (owner : NodeId) (filter : CStr) (i : RouteSlot cfg) : Prop :=
  (r.exact i).state = .used ∧ (r.exact i).ownerId = owner ∧ (r.exact i).filter = filter

def WildcardFor (r : RouteTable cfg) (owner : NodeId) (filter : CStr) (i : RouteSlot cfg) : Prop :=
  (r.wildcard i).inUse = true ∧ (r.wildcard i).ownerId = owner ∧ (r.wildcard i).filter = filter

/-- The tables of routes say the same as the nodes. -/
structure Agrees (r : RouteTable cfg) : Prop where
  exact : ∀ owner filter, (∃ i, r.ExactFor owner filter i) ↔
    filterIsExact filter = true ∧ r.Holds owner filter
  exact_once : ∀ owner filter i j, r.ExactFor owner filter i → r.ExactFor owner filter j → i = j
  wildcard : ∀ owner filter, (∃ i, r.WildcardFor owner filter i) ↔
    filterIsExact filter = false ∧ r.Holds owner filter
  wildcard_once : ∀ owner filter i j,
    r.WildcardFor owner filter i → r.WildcardFor owner filter j → i = j
  hop : ∀ owner hop filter, r.HasRoute owner hop filter → ∀ i,
    (r.nodes i).inUse = true → (r.nodes i).ownerId = owner → (r.nodes i).nextHopId = hop

theorem Mirrors.call (hr : r.Mirrors) {c : Call} (hc : r.KeepsUp c) : (r.call c).Mirrors := by
  cases c with
  | subscribe owner filter qos hop => exact hr.remoteSubscribe hc.1 hc.2
  | unsubscribe owner filter => exact hr.remoteUnsubscribe
  | removeNode id => exact hr.removeNode

theorem Mirrors.agrees (hr : r.Mirrors) : r.Agrees := by
  have hexact : ∀ {o f i}, r.ExactFor o f i ↔ r.exactKey i = some (o, f) :=
    fun {o f _} ↦ (exactKey_some (k := (o, f))).symm
  have hwildcard : ∀ {o f i}, r.WildcardFor o f i ↔ r.wildcardKey i = some (o, f) :=
    fun {o f _} ↦ (wildcardKey_some (k := (o, f))).symm
  have hholds : ∀ {o f}, r.Holds o f ↔ ∃ h, r.HasRoute o h f := by
    intro o f
    simp only [holds_iff_wants, hr.routes]
  refine ⟨fun o f ↦ ?_, fun o f i j hi hj ↦ ?_, fun o f ↦ ?_, fun o f i j hi hj ↦ ?_,
    fun o h f hroute i huse howner ↦ ?_⟩
  · simp only [hexact, hholds, hasRoute_iff]
    constructor
    · rintro ⟨i, hi⟩
      exact ⟨hr.tables.exact_plain i _ hi, _, .inl ⟨i, hi, rfl⟩⟩
    · rintro ⟨hplain, h, ⟨i, hi, -⟩ | ⟨i, hi, -⟩⟩
      · exact ⟨i, hi⟩
      · rw [hr.tables.wildcard_plain i _ hi] at hplain
        cases hplain
  · exact hr.tables.exact_once i j _ (hexact.mp hi) (hexact.mp hj)
  · simp only [hwildcard, hholds, hasRoute_iff]
    constructor
    · rintro ⟨i, hi⟩
      exact ⟨hr.tables.wildcard_plain i _ hi, _, .inr ⟨i, hi, rfl⟩⟩
    · rintro ⟨hplain, h, ⟨i, hi, -⟩ | ⟨i, hi, -⟩⟩
      · rw [hr.tables.exact_plain i _ hi] at hplain
        cases hplain
      · exact ⟨i, hi⟩
  · exact hr.tables.wildcard_once i j _ (hwildcard.mp hi) (hwildcard.mp hj)
  · obtain ⟨j, hj, hjo, hjh, -⟩ := (hr.routes o h f).mp hroute
    obtain rfl := hr.nodes.owner_once i j huse hj (howner.trans hjo.symm)
    exact hjh

/-- In every run of the three functions in which a node's next hop changes only with
its routes, the tables of routes mirror the subscriptions. -/
theorem agrees_of_keepsUp (h : Called KeepsUp r) : r.Agrees := by
  have hr : r.Mirrors := by
    induction h with
    | init => exact mirrors_init
    | call _ hc ih => exact ih.call hc
  exact hr.agrees

instance : Decidable (r.KeepsHop owner filter hop) :=
  inferInstanceAs (Decidable (∀ _, _ → _ → _ → _ → _))

instance : DecidablePred r.KeepsUp
  | .subscribe _ _ _ _ => inferInstanceAs (Decidable (_ ∧ _))
  | .unsubscribe _ _ | .removeNode _ => .isTrue trivial

/-- A subscription of broker 1 that broker 2 passes on. -/
def passed (n : ℕ) : Call := .subscribe (fun _ ↦ 1) [UInt8.ofNat (n + 97)] 0 fun _ ↦ 2

/-- A subscription that broker 1 sends itself. -/
def direct : Call := .subscribe (fun _ ↦ 1) [Ch.slash] 0 fun _ ↦ 1

/-- A route of broker 1 goes to broker 2, although broker 1 is its own next hop. -/
def Behind (r : RouteTable cfg) : Prop :=
  (∃ i, (r.exact i).state = .used ∧ (r.exact i).ownerId = (fun _ ↦ 1) ∧
    (r.exact i).nextHopId = fun _ ↦ 2) ∧
  (r.nodes 0).inUse = true ∧ (r.nodes 0).ownerId = (fun _ ↦ 1) ∧ (r.nodes 0).nextHopId = fun _ ↦ 1

instance : Decidable r.Behind := inferInstanceAs (Decidable (_ ∧ _))

theorem Behind.not_agrees (h : r.Behind) : ¬ r.Agrees := by
  intro hagrees
  obtain ⟨⟨i, huse, howner, hhop⟩, hnode, hnodeOwner, hnodeHop⟩ := h
  have hsame := hagrees.hop _ _ _ (.exact i huse) 0 hnode (hnodeOwner.trans howner.symm)
  rw [hnodeHop, hhop] at hsame
  exact absurd hsame (by decide)

theorem called_foldl (calls : List Call) : Called (fun _ _ ↦ True) (calls.foldl call (init cfg)) := by
  induction calls using List.reverseRecOn with
  | nil => exact .init
  | append_singleton calls c ih =>
      rw [List.foldl_append]
      exact ih.call trivial

/-- The statement where the routes of a broker get its new next hop. -/
theorem agrees_of_keepsUp_direct : ∃ r : RouteTable Config.posix, Called KeepsUp r ∧
    r.Holds (fun _ ↦ 1) [97] ∧ (r.nodes 0).nextHopId = (fun _ ↦ 1) ∧ r.Agrees := by
  have h₀ : Called KeepsUp (init Config.posix) := .init
  have h₁ := h₀.call (c := passed 0) (by decide +kernel)
  have h₂ := h₁.call (c := direct) (by decide +kernel)
  exact ⟨_, h₂, by decide +kernel, by decide +kernel, agrees_of_keepsUp h₂⟩

/-- The next hop of a node without a free slot changes, and its routes keep the old one. -/
theorem full_node_stale_routes : ∃ r : RouteTable Config.posix, Called (fun _ _ ↦ True) r ∧
    ¬ r.Agrees :=
  ⟨_, called_foldl ((List.range 32).map passed ++ [direct]), Behind.not_agrees (by decide +kernel)⟩

end RouteTable

end MqttBroker
