import MqttBroker.Mesh.Mirror
import MqttBroker.Lib.Distinct

/-!
# Next hops and a scan of the tables

`p2p_router_find_next_hops` with any room for hops, compared with a look at
every route of both tables, after any calls of the router.
-/

namespace MqttBroker

open Probing Distinct

variable {cfg : Config}

namespace RouteTable

variable (r : RouteTable cfg) (topic : CStr) (exclude : Option NodeId)

/-! ## The code -/

/-- The loop over the exact routes, with room for `max` hops. -/
def exactHopsUpTo (max : ℕ) (out : List NodeId) : List (RouteSlot cfg) → List NodeId
  | [] => out
  | i :: is =>
      if max ≤ out.length ∨ (r.exact i).state = .empty then out
      else if (r.exact i).state = .used ∧ (r.exact i).filter = topic ∧
          some (r.exact i).nextHopId ≠ exclude ∧ (r.exact i).nextHopId ∉ out then
        exactHopsUpTo max (out ++ [(r.exact i).nextHopId]) is
      else exactHopsUpTo max out is

/-- One round of the loop over the wildcard routes, with room for `max` hops. -/
def wildcardHopUpTo (max : ℕ) (out : List NodeId) (i : RouteSlot cfg) : List NodeId :=
  if out.length < max ∧ (r.wildcard i).inUse ∧ some (r.wildcard i).nextHopId ≠ exclude ∧
      (r.wildcard i).nextHopId ∉ out ∧ Router.topicMatch (r.wildcard i).filter topic then
    out ++ [(r.wildcard i).nextHopId]
  else out

/-- `p2p_router_find_next_hops` -/
def findNextHopsUpTo (max : ℤ) : List NodeId :=
  if max ≤ 0 then []
  else
    let out := if filterIsExact topic then
      r.exactHopsUpTo topic exclude max.toNat [] (probe cfg topic) else []
    (List.finRange cfg.routeMax).foldl (r.wildcardHopUpTo topic exclude max.toNat) out

variable {r topic exclude}

theorem exactHopsUpTo_peerMax (out : List NodeId) (is : List (RouteSlot cfg)) :
    r.exactHopsUpTo topic exclude cfg.peerMax out is = r.exactHops topic exclude out is := by
  induction is generalizing out with
  | nil => rfl
  | cons i is ih => rw [exactHopsUpTo, exactHops, ih, ih]

/-- The call of `p2p_send_publish_from_router_prebuilt`, which has room for
`P2P_PEER_MAX` hops. -/
theorem findNextHopsUpTo_peerMax :
    r.findNextHopsUpTo topic exclude cfg.peerMax = r.findNextHops topic exclude := by
  have hpos : ¬ (cfg.peerMax : ℤ) ≤ 0 := by
    have hpos := cfg.peerMax_pos
    omega
  rw [findNextHopsUpTo, if_neg hpos, Int.toNat_natCast, exactHopsUpTo_peerMax]
  rfl

/-! ## A scan -/

variable (r topic exclude)

/-- The hops of the exact routes among `is` that are for the topic. -/
def exactMatches (is : List (RouteSlot cfg)) : List NodeId :=
  (is.filter fun i ↦ (r.exact i).state = .used ∧ (r.exact i).filter = topic ∧
    some (r.exact i).nextHopId ≠ exclude).map fun i ↦ (r.exact i).nextHopId

/-- The hops of the wildcard routes among `is` that match the topic. -/
def wildcardMatches (is : List (RouteSlot cfg)) : List NodeId :=
  (is.filter fun i ↦ (r.wildcard i).inUse ∧ some (r.wildcard i).nextHopId ≠ exclude ∧
    Router.topicMatch (r.wildcard i).filter topic).map fun i ↦ (r.wildcard i).nextHopId

/-- The next hops by a scan of both tables, without repetition. -/
def scanHops : List NodeId :=
  (r.exactMatches topic exclude (List.finRange cfg.routeMax) ++
    r.wildcardMatches topic exclude (List.finRange cfg.routeMax)).dedup

/-- All the hops of the scan, if there is room for them, and otherwise `max` of them; none
twice. -/
structure FindsScanned (max : ℤ) : Prop where
  nodup : (r.findNextHopsUpTo topic exclude max).Nodup
  all : ((r.scanHops topic exclude).length : ℤ) ≤ max →
    (r.findNextHopsUpTo topic exclude max).Perm (r.scanHops topic exclude)
  some : max < (r.scanHops topic exclude).length →
    (r.findNextHopsUpTo topic exclude max).length = max.toNat ∧
      ∀ hop ∈ r.findNextHopsUpTo topic exclude max, hop ∈ r.scanHops topic exclude

/-! ## The loops collect -/

variable {r topic exclude} {max : ℕ} {out : List NodeId}

/-- The exact routes up to the first slot that was never used. -/
def untilEmpty (r : RouteTable cfg) (is : List (RouteSlot cfg)) : List (RouteSlot cfg) :=
  is.takeWhile fun i ↦ (r.exact i).state ≠ .empty

theorem exactMatches_cons (i : RouteSlot cfg) (is : List (RouteSlot cfg)) :
    r.exactMatches topic exclude (i :: is) =
      if (r.exact i).state = .used ∧ (r.exact i).filter = topic ∧
          some (r.exact i).nextHopId ≠ exclude then
        (r.exact i).nextHopId :: r.exactMatches topic exclude is
      else r.exactMatches topic exclude is := by
  unfold exactMatches
  rw [List.filter_cons]
  simp only [decide_eq_true_eq]
  split_ifs <;> rfl

theorem wildcardMatches_cons (i : RouteSlot cfg) (is : List (RouteSlot cfg)) :
    r.wildcardMatches topic exclude (i :: is) =
      if (r.wildcard i).inUse ∧ some (r.wildcard i).nextHopId ≠ exclude ∧
          Router.topicMatch (r.wildcard i).filter topic then
        (r.wildcard i).nextHopId :: r.wildcardMatches topic exclude is
      else r.wildcardMatches topic exclude is := by
  unfold wildcardMatches
  rw [List.filter_cons]
  simp only [decide_eq_true_eq]
  split_ifs <;> rfl

theorem exactHopsUpTo_eq_collect (is : List (RouteSlot cfg)) :
    r.exactHopsUpTo topic exclude max out is =
      collect max out (r.exactMatches topic exclude (r.untilEmpty is)) := by
  induction is generalizing out with
  | nil => rfl
  | cons i is ih =>
      unfold exactHopsUpTo
      by_cases hempty : (r.exact i).state = .empty
      · simp [hempty, untilEmpty, exactMatches, collect]
      by_cases hfull : max ≤ out.length
      · simp [hfull, collect_of_full hfull]
      have huntil : r.untilEmpty (i :: is) = i :: r.untilEmpty is := by
        simp [untilEmpty, hempty]
      rw [if_neg (not_or.mpr ⟨hfull, hempty⟩), ih, ih, huntil, exactMatches_cons]
      by_cases hmatch : (r.exact i).state = .used ∧ (r.exact i).filter = topic ∧
          some (r.exact i).nextHopId ≠ exclude
      · rw [if_pos hmatch, collect, if_neg hfull, insertNew]
        by_cases hmem : (r.exact i).nextHopId ∈ out <;> simp [hmatch, hmem]
      · rw [if_neg hmatch, if_neg]
        exact fun h ↦ hmatch ⟨h.1, h.2.1, h.2.2.1⟩

theorem wildcardHops_eq_collect (is : List (RouteSlot cfg)) :
    is.foldl (r.wildcardHopUpTo topic exclude max) out =
      collect max out (r.wildcardMatches topic exclude is) := by
  induction is generalizing out with
  | nil => rfl
  | cons i is ih =>
      rw [List.foldl_cons, ih, wildcardMatches_cons]
      by_cases hfull : max ≤ out.length
      · have hsame : r.wildcardHopUpTo topic exclude max out i = out :=
          if_neg fun h ↦ absurd h.1 (not_lt.mpr hfull)
        rw [hsame, collect_of_full hfull, collect_of_full hfull]
      by_cases hmatch : (r.wildcard i).inUse ∧ some (r.wildcard i).nextHopId ≠ exclude ∧
          Router.topicMatch (r.wildcard i).filter topic
      · rw [if_pos hmatch, collect, if_neg hfull, insertNew, wildcardHopUpTo]
        by_cases hmem : (r.wildcard i).nextHopId ∈ out <;> simp [hmatch, hmem, not_le.mp hfull]
      · have hsame : r.wildcardHopUpTo topic exclude max out i = out :=
          if_neg fun h ↦ hmatch ⟨h.2.1, h.2.2.1, h.2.2.2.2⟩
        rw [if_neg hmatch, hsame]

variable (r topic exclude) in
/-- The distinct hops in the order in which the loops meet them. -/
def foundHops : List NodeId :=
  distinct [] (r.exactMatches topic exclude (r.untilEmpty (probe cfg topic)) ++
    r.wildcardMatches topic exclude (List.finRange cfg.routeMax))

/-- `p2p_router_find_next_hops` takes the first of them. -/
theorem findNextHopsUpTo_eq (htopic : filterIsExact topic = true) (max : ℤ) :
    r.findNextHopsUpTo topic exclude max = (r.foundHops topic exclude).take max.toNat := by
  unfold findNextHopsUpTo
  split_ifs with hmax
  · rw [Int.toNat_of_nonpos hmax, List.take_zero]
  · dsimp only
    rw [exactHopsUpTo_eq_collect, wildcardHops_eq_collect, ← collect_append (Nat.zero_le _),
      collect_eq_take (Nat.zero_le _), foundHops]

/-! ## The search gets to every route for the topic -/

/-- The exact routes can be found, and the nodes hold whole filters only. -/
structure Searchable (r : RouteTable cfg) : Prop where
  reached : Reached (fun k ↦ probe cfg k.2) r.exactCell
  fits : ∀ i j, ((r.nodes i).subs j).filter.length < MQTT_TOPIC_MAX

theorem Searchable.mem_untilEmpty (hr : r.Searchable) {i : RouteSlot cfg}
    (huse : (r.exact i).state = .used) (hfilter : (r.exact i).filter = topic) :
    i ∈ r.untilEmpty (probe cfg topic) := by
  obtain ⟨pre, post, hprobe, hpre⟩ := hr.reached i ((r.exact i).ownerId, topic)
    (exactCell_used.mpr ⟨huse, rfl, hfilter⟩)
  have hpassed : ∀ j ∈ pre, decide ((r.exact j).state ≠ .empty) = true :=
    fun j hj ↦ decide_eq_true fun hempty ↦ hpre j hj (exactCell_empty.mpr hempty)
  dsimp only at hprobe
  rw [untilEmpty, hprobe, List.takeWhile_append_of_pos hpassed,
    List.takeWhile_cons_of_pos (by simp [huse])]
  simp

theorem Searchable.mem_foundHops_iff (hr : r.Searchable) {hop : NodeId} :
    hop ∈ r.foundHops topic exclude ↔ hop ∈ r.scanHops topic exclude := by
  have hexact : hop ∈ r.exactMatches topic exclude (r.untilEmpty (probe cfg topic)) ↔
      hop ∈ r.exactMatches topic exclude (List.finRange cfg.routeMax) := by
    simp only [exactMatches, List.mem_map, List.mem_filter, decide_eq_true_eq, List.mem_finRange,
      true_and]
    constructor
    · rintro ⟨i, ⟨-, hmatch⟩, rfl⟩
      exact ⟨i, hmatch, rfl⟩
    · rintro ⟨i, hmatch, rfl⟩
      exact ⟨i, ⟨hr.mem_untilEmpty hmatch.1 hmatch.2.1, hmatch⟩, rfl⟩
  rw [foundHops, scanHops, mem_distinct, List.mem_dedup, List.mem_append, List.mem_append, hexact]
  simp

theorem Searchable.findsScanned (hr : r.Searchable) (htopic : filterIsExact topic = true)
    (exclude : Option NodeId) (max : ℤ) : r.FindsScanned topic exclude max := by
  have hnodup : (r.foundHops topic exclude).Nodup := nodup_distinct List.nodup_nil
  have hperm : (r.foundHops topic exclude).Perm (r.scanHops topic exclude) :=
    (List.perm_ext_iff_of_nodup hnodup (List.nodup_dedup _)).mpr fun _ ↦ hr.mem_foundHops_iff
  refine ⟨?_, fun hroom ↦ ?_, fun hfew ↦ ⟨?_, fun hop hhop ↦ ?_⟩⟩
  · rw [findNextHopsUpTo_eq htopic]
    exact hnodup.sublist (List.take_sublist _ _)
  · rw [findNextHopsUpTo_eq htopic, List.take_of_length_le]
    · exact hperm
    · rw [hperm.length_eq]
      omega
  · rw [findNextHopsUpTo_eq htopic, List.length_take, hperm.length_eq]
    omega
  · rw [findNextHopsUpTo_eq htopic] at hhop
    exact hr.mem_foundHops_iff.mp (List.mem_of_mem_take hhop)

/-! ## Runs -/

variable {owner hop id : NodeId} {filter : CStr} {qos : UInt8}

theorem searchable_init : (RouteTable.init cfg).Searchable where
  reached _ _ h := nomatch h
  fits _ _ := Nat.zero_lt_succ _

theorem Searchable.exactRouteUpsert (hr : r.Searchable)
    (hfits : filter.length < MQTT_TOPIC_MAX ∨ filterIsExact filter = false) :
    (r.exactRouteUpsert owner hop filter).Searchable := by
  unfold RouteTable.exactRouteUpsert
  split_ifs with hexact
  · exact hr
  · have hlen : filter.length < MQTT_TOPIC_MAX :=
      hfits.resolve_right (by simpa using hexact)
    rw [take_filter hlen]
    split
    · next i _ =>
        refine ⟨?_, hr.fits⟩
        have hcell : exactCell { r with
            exact := Function.update r.exact i { r.exact i with nextHopId := hop } } = r.exactCell := by
          funext j
          by_cases hj : j = i
          · subst hj
            simp [exactCell]
          · simp [exactCell, hj]
        rw [hcell]
        exact hr.reached
    · next i hseek =>
        rw [exactUpsertSlot_eq_seek] at hseek
        obtain ⟨-, pre, post, hprobe, hpre⟩ := (seek_some hseek).resolve_left (by simp)
        refine ⟨?_, hr.fits⟩
        rw [exactCell_put rfl]
        exact hr.reached.fill (k := (owner, filter)) hprobe hpre
    · exact hr

theorem Searchable.wildcardRouteUpsert (hr : r.Searchable) :
    (r.wildcardRouteUpsert owner hop filter).Searchable := by
  unfold RouteTable.wildcardRouteUpsert
  split_ifs
  · exact hr
  · split
    · exact ⟨hr.reached, hr.fits⟩
    · split
      · exact ⟨hr.reached, hr.fits⟩
      · exact hr

theorem Searchable.routeUpsert (hr : r.Searchable)
    (hfits : filter.length < MQTT_TOPIC_MAX ∨ filterIsExact filter = false) :
    (r.routeUpsert owner hop filter).Searchable :=
  (hr.exactRouteUpsert hfits).wildcardRouteUpsert

theorem Searchable.nodeRoutesRefresh (hr : r.Searchable) {node : RemoteNode cfg}
    (hfits : ∀ j, (node.subs j).filter.length < MQTT_TOPIC_MAX) :
    (r.nodeRoutesRefresh node).Searchable := by
  unfold RouteTable.nodeRoutesRefresh
  induction List.finRange cfg.remoteSubsPerNode generalizing r with
  | nil => exact hr
  | cons j js ih =>
      rw [List.foldl_cons]
      split_ifs
      · exact ih (hr.routeUpsert (.inl (hfits j)))
      · exact ih hr

/-- The nodes are not looked at in the search. -/
theorem Searchable.setNode (hr : r.Searchable) (i : NodeSlot cfg) (node : RemoteNode cfg)
    (hfits : ∀ j, (node.subs j).filter.length < MQTT_TOPIC_MAX) :
    Searchable { r with nodes := Function.update r.nodes i node } := by
  refine ⟨hr.reached, fun k j ↦ ?_⟩
  dsimp only
  by_cases hk : k = i
  · subst hk
    rw [Function.update_self]
    exact hfits j
  · rw [Function.update_of_ne hk]
    exact hr.fits k j

theorem Searchable.findOrCreateNode (hr : r.Searchable) {i : NodeSlot cfg} {r' : RouteTable cfg}
    (hnode : r.findOrCreateNode owner = some (i, r')) : r'.Searchable := by
  obtain ⟨-, ⟨-, rfl⟩ | ⟨-, -, rfl⟩⟩ := findOrCreateNode_cases hnode
  · exact hr
  · exact hr.setNode i _ fun j ↦ Nat.zero_lt_succ _

/-- A notification that gives a new next hop to every node of the owner. -/
def NewHop (r : RouteTable cfg) (owner hop : NodeId) : Prop :=
  ∀ i, r.findNode owner = some i → (r.nodes i).RouteChanges hop

theorem NewHop.routeChanges (h : r.NewHop owner hop) {i : NodeSlot cfg} {r' : RouteTable cfg}
    (hnode : r.findOrCreateNode owner = some (i, r')) : (r'.nodes i).RouteChanges hop := by
  obtain ⟨-, ⟨hfind, rfl⟩ | ⟨-, -, rfl⟩⟩ := findOrCreateNode_cases hnode
  · exact h i hfind
  · refine .inl ?_
    dsimp only
    rw [Function.update_self]
    rfl

/-- The stored filters are those of the routes that a new next hop brings up to date. -/
theorem Searchable.remoteSubscribe (hr : r.Searchable)
    (hfits : filter.length < MQTT_TOPIC_MAX ∨ filterIsExact filter = false ∨ r.NewHop owner hop) :
    (r.remoteSubscribe owner filter qos hop).2.Searchable := by
  unfold RouteTable.remoteSubscribe
  split
  · exact hr
  · next i r₁ hnode =>
      have hr₁ := hr.findOrCreateNode hnode
      have hheard : ∀ j, (((r₁.nodes i).heardFrom hop).subs j).filter.length < MQTT_TOPIC_MAX := by
        intro j
        rw [RemoteNode.heardFrom_subs]
        exact hr₁.fits i j
      dsimp only
      split
      · exact hr₁.setNode i _ hheard
      · next j _ =>
          have hsubs : ∀ k, (Function.update ((r₁.nodes i).heardFrom hop).subs j
              ⟨filter.take (MQTT_TOPIC_MAX - 1), qos, true⟩ k).filter.length < MQTT_TOPIC_MAX := by
            intro k
            by_cases hk : k = j
            · subst hk
              rw [Function.update_self, List.length_take]
              exact (min_le_left _ _).trans_lt (by decide)
            · rw [Function.update_of_ne hk]
              exact hheard k
          split_ifs with hchanges
          · exact (hr₁.setNode i _ hsubs).nodeRoutesRefresh hsubs
          · refine (hr₁.setNode i _ hsubs).routeUpsert ?_
            rcases hfits with hlen | hwild | hnew
            · exact .inl hlen
            · exact .inr hwild
            · exact absurd (decide_eq_true (hnew.routeChanges hnode)) hchanges

/-- Routes are taken out, and no slot becomes empty. -/
theorem Searchable.dropRoutes (hr : r.Searchable) (P : NodeId → NodeId → CStr → Prop)
    [∀ o h f, Decidable (P o h f)] : (r.dropRoutes P).Searchable :=
  ⟨hr.reached.mono (fun _ _ ↦ dropRoutes_cell_used) fun _ ↦ dropRoutes_cell_empty, hr.fits⟩

theorem Searchable.clearNodeIfEmpty (hr : r.Searchable) (i : NodeSlot cfg) :
    (r.clearNodeIfEmpty i).Searchable := by
  unfold RouteTable.clearNodeIfEmpty
  split_ifs
  · exact hr
  · exact hr.setNode i _ fun j ↦ Nat.zero_lt_succ _

theorem Searchable.remoteUnsubscribe (hr : r.Searchable) :
    (r.remoteUnsubscribe owner filter).2.Searchable := by
  unfold RouteTable.remoteUnsubscribe
  split
  · exact hr
  · next i _ =>
      have hset := hr.setNode i { r.nodes i with
        subs := fun j ↦ if ((r.nodes i).subs j).inUse ∧ ((r.nodes i).subs j).filter = filter then
          { (r.nodes i).subs j with inUse := false } else (r.nodes i).subs j } fun j ↦ by
        dsimp only
        split_ifs <;> exact hr.fits i j
      dsimp only
      split_ifs
      · exact (hset.dropRoutes fun o _ f ↦ o = owner ∧ f = filter).clearNodeIfEmpty i
      · exact hset.clearNodeIfEmpty i

theorem Searchable.removeNode (hr : r.Searchable) : (r.removeNode id).Searchable := by
  refine ⟨(hr.dropRoutes fun o h _ ↦ o = id ∨ h = id).reached, fun i j ↦ ?_⟩
  dsimp only [RouteTable.removeNode]
  split_ifs
  · exact Nat.zero_lt_succ _
  · exact hr.fits i j

/-- A filter is stored whole, or is no exact one, or the routes of its owner are set anew from
the stored filters. -/
def StoredWhole (r : RouteTable cfg) : Call → Prop
  | .subscribe owner filter _ hop =>
      filter.length < MQTT_TOPIC_MAX ∨ filterIsExact filter = false ∨ r.NewHop owner hop
  | _ => True

theorem Searchable.call (hr : r.Searchable) {c : Call} (hc : r.StoredWhole c) :
    (r.call c).Searchable := by
  cases c with
  | subscribe owner filter qos hop => exact hr.remoteSubscribe hc
  | unsubscribe owner filter => exact hr.remoteUnsubscribe
  | removeNode id => exact hr.removeNode

/-- After every run in which exact filters are stored whole, the lookup agrees with a scan. -/
theorem findsScanned_of_storedWhole (h : Called StoredWhole r) (topic : CStr)
    (htopic : filterIsExact topic = true) (exclude : Option NodeId) (max : ℤ) :
    r.FindsScanned topic exclude max := by
  have hr : r.Searchable := by
    induction h with
    | init => exact searchable_init
    | call _ hc ih => exact ih.call hc
  exact hr.findsScanned htopic exclude max

/-- A subscription of broker 1 that broker 2 passes on, looked up with room for one hop. -/
theorem findsScanned_of_storedWhole_passed : ∃ r : RouteTable Config.posix,
    Called StoredWhole r ∧ r.scanHops [97] none = [fun _ ↦ 2] ∧ r.FindsScanned [97] none 1 := by
  have hcalled : Called StoredWhole ((init Config.posix).call (passed 0)) :=
    Called.init.call (.inl (by decide))
  exact ⟨_, hcalled, by decide +kernel,
    findsScanned_of_storedWhole hcalled [97] (by decide) none 1⟩

/-- A subscription whose filter fills the whole field of a `p2p_sub_msg_t`. -/
def unterminated : Call :=
  .subscribe (fun _ ↦ 1) (List.replicate MQTT_TOPIC_MAX 97) 0 fun _ ↦ 2

/-- The filter is stored without its last byte, in the slot of the whole filter. -/
theorem long_filter_not_found : ∃ r : RouteTable Config.posix, Called (fun _ _ ↦ True) r ∧
    ∃ topic, filterIsExact topic = true ∧ ¬ r.FindsScanned topic none 10 := by
  refine ⟨_, called_foldl [passed 0, unterminated],
    List.replicate (MQTT_TOPIC_MAX - 1) 97, by decide, fun hfinds ↦ ?_⟩
  have hscan : ([passed 0, unterminated].foldl call (init Config.posix)).scanHops
      (List.replicate (MQTT_TOPIC_MAX - 1) 97) none = [fun _ ↦ 2] := by decide +kernel
  have hfound : ([passed 0, unterminated].foldl call (init Config.posix)).findNextHopsUpTo
      (List.replicate (MQTT_TOPIC_MAX - 1) 97) none 10 = [] := by decide +kernel
  have hall := hfinds.all (by rw [hscan]; decide)
  rw [hscan, hfound] at hall
  exact absurd hall.length_eq (by decide)

end RouteTable

end MqttBroker
