import MqttBroker.Mesh.Router

/-!
# What a route table holds

Whose nodes and routes are in a table after each of the operations, when a
notification is passed on, and which subscriptions stay.
-/

namespace MqttBroker

variable {cfg : Config}

namespace RemoteNode

variable {node : RemoteNode cfg} {hop : NodeId} {filter : CStr}

@[simp] theorem heardFrom_ownerId : (node.heardFrom hop).ownerId = node.ownerId := by
  unfold heardFrom
  split_ifs <;> rfl

@[simp] theorem heardFrom_subs : (node.heardFrom hop).subs = node.subs := by
  unfold heardFrom
  split_ifs <;> rfl

@[simp] theorem heardFrom_findSub : (node.heardFrom hop).findSub filter = node.findSub filter := by
  unfold findSub
  rw [heardFrom_subs]

@[simp] theorem heardFrom_freeSub : (node.heardFrom hop).freeSub = node.freeSub := by
  unfold freeSub
  rw [heardFrom_subs]

end RemoteNode

/-! ## Whose subscriptions it holds -/

namespace RouteTable

variable {r : RouteTable cfg} {x owner hop id : NodeId} {filter : CStr} {qos : UInt8}

/-- A route in use belongs to `x`. -/
def OwnsRoute (r : RouteTable cfg) (x : NodeId) : Prop := ∃ hop filter, r.HasRoute x hop filter

/-- A node or a route in use belongs to `x`. -/
def Owns (r : RouteTable cfg) (x : NodeId) : Prop :=
  (∃ i, (r.nodes i).inUse = true ∧ (r.nodes i).ownerId = x) ∨ r.OwnsRoute x

theorem ownsRoute_iff : r.OwnsRoute x ↔
    (∃ i, (r.exact i).state = .used ∧ (r.exact i).ownerId = x) ∨
      ∃ i, (r.wildcard i).inUse = true ∧ (r.wildcard i).ownerId = x := by
  constructor
  · rintro ⟨hop, filter, hroute⟩
    cases hroute with
    | exact i h => exact .inl ⟨i, h, rfl⟩
    | wildcard i h => exact .inr ⟨i, h, rfl⟩
  · rintro (⟨i, h, rfl⟩ | ⟨i, h, rfl⟩)
    · exact ⟨_, _, .exact i h⟩
    · exact ⟨_, _, .wildcard i h⟩

theorem init_not_owns : ¬ (RouteTable.init cfg).Owns x := by
  rw [Owns, ownsRoute_iff]
  rintro (⟨i, h, -⟩ | ⟨i, h, -⟩ | ⟨i, h, -⟩) <;> cases h

theorem setNode_owns {i : NodeSlot cfg} {node : RemoteNode cfg}
    (h : RouteTable.Owns { r with nodes := Function.update r.nodes i node } x) :
    node.inUse = true ∧ node.ownerId = x ∨ r.Owns x := by
  rcases h with ⟨k, huse, hid⟩ | h
  · by_cases hki : k = i
    · subst hki
      simp only [Function.update_self] at huse hid
      exact .inl ⟨huse, hid⟩
    · simp only [Function.update_of_ne hki] at huse hid
      exact .inr (.inl ⟨k, huse, hid⟩)
  · right
    right
    rw [ownsRoute_iff] at h ⊢
    exact h

theorem setExact_ownsRoute {i : RouteSlot cfg} {route : ExactRoute}
    (h : RouteTable.OwnsRoute { r with exact := Function.update r.exact i route } x) :
    route.state = .used ∧ route.ownerId = x ∨ r.OwnsRoute x := by
  rw [ownsRoute_iff] at h ⊢
  rcases h with ⟨k, huse, hid⟩ | h
  · by_cases hki : k = i
    · subst hki
      simp only [Function.update_self] at huse hid
      exact .inl ⟨huse, hid⟩
    · simp only [Function.update_of_ne hki] at huse hid
      exact .inr (.inl ⟨k, huse, hid⟩)
  · exact .inr (.inr h)

theorem setWildcard_ownsRoute {i : RouteSlot cfg} {route : WildcardRoute}
    (h : RouteTable.OwnsRoute { r with wildcard := Function.update r.wildcard i route } x) :
    route.inUse = true ∧ route.ownerId = x ∨ r.OwnsRoute x := by
  rw [ownsRoute_iff] at h ⊢
  rcases h with h | ⟨k, huse, hid⟩
  · exact .inr (.inl h)
  · by_cases hki : k = i
    · subst hki
      simp only [Function.update_self] at huse hid
      exact .inl ⟨huse, hid⟩
    · simp only [Function.update_of_ne hki] at huse hid
      exact .inr (.inr ⟨k, huse, hid⟩)

theorem exactRouteUpsert_ownsRoute (h : (r.exactRouteUpsert owner hop filter).OwnsRoute x) :
    x = owner ∨ r.OwnsRoute x := by
  unfold exactRouteUpsert at h
  split_ifs at h
  · exact .inr h
  · split at h
    · next i _ =>
        rcases setExact_ownsRoute h with ⟨huse, hid⟩ | h
        · exact .inr (ownsRoute_iff.mpr (.inl ⟨i, huse, hid⟩))
        · exact .inr h
    · exact (setExact_ownsRoute h).imp_left fun hroute ↦ hroute.2.symm
    · exact .inr h

theorem wildcardRouteUpsert_ownsRoute (h : (r.wildcardRouteUpsert owner hop filter).OwnsRoute x) :
    x = owner ∨ r.OwnsRoute x := by
  unfold wildcardRouteUpsert at h
  split_ifs at h
  · exact .inr h
  · split at h
    · next i _ =>
        rcases setWildcard_ownsRoute h with ⟨huse, hid⟩ | h
        · exact .inr (ownsRoute_iff.mpr (.inr ⟨i, huse, hid⟩))
        · exact .inr h
    · split at h
      · exact (setWildcard_ownsRoute h).imp_left fun hroute ↦ hroute.2.symm
      · exact .inr h

@[simp] theorem exactRouteUpsert_nodes :
    (r.exactRouteUpsert owner hop filter).nodes = r.nodes := by
  unfold exactRouteUpsert
  split_ifs
  · rfl
  · split <;> rfl

@[simp] theorem wildcardRouteUpsert_nodes :
    (r.wildcardRouteUpsert owner hop filter).nodes = r.nodes := by
  unfold wildcardRouteUpsert
  split_ifs
  · rfl
  · split
    · rfl
    · split <;> rfl

@[simp] theorem routeUpsert_nodes : (r.routeUpsert owner hop filter).nodes = r.nodes := by
  simp [routeUpsert]

theorem routeUpsert_owns (h : (r.routeUpsert owner hop filter).Owns x) :
    x = owner ∨ r.Owns x := by
  rcases h with ⟨i, huse, hid⟩ | h
  · rw [routeUpsert_nodes] at huse hid
    exact .inr (.inl ⟨i, huse, hid⟩)
  · rcases wildcardRouteUpsert_ownsRoute h with hx | h
    · exact .inl hx
    · exact (exactRouteUpsert_ownsRoute h).imp_right .inr

theorem nodeRoutesRefresh_owns {node : RemoteNode cfg} (h : (r.nodeRoutesRefresh node).Owns x) :
    x = node.ownerId ∨ r.Owns x := by
  unfold nodeRoutesRefresh at h
  generalize List.finRange cfg.remoteSubsPerNode = slots at h
  induction slots generalizing r with
  | nil => exact .inr h
  | cons i is ih =>
      rw [List.foldl_cons] at h
      split_ifs at h
      · rcases ih h with hx | h
        · exact .inl hx
        · exact routeUpsert_owns h
      · exact ih h

theorem findOrCreateNode_cases {i : NodeSlot cfg} {r' : RouteTable cfg}
    (h : r.findOrCreateNode owner = some (i, r')) :
    (r'.nodes i).ownerId = owner ∧
      (r.findNode owner = some i ∧ r' = r ∨
        r.findNode owner = none ∧ r.freeNode = some i ∧ r' = { r with
          nodes := Function.update r.nodes i { RemoteNode.zeroed cfg with
            ownerId := owner
            inUse := true } }) := by
  unfold findOrCreateNode at h
  split at h
  · next j hfind =>
      cases h
      have hj : (r.nodes i).inUse = true ∧ (r.nodes i).ownerId = owner := by
        simpa using List.find?_some hfind
      exact ⟨hj.2, .inl ⟨hfind, rfl⟩⟩
  · next hfind =>
      obtain ⟨j, hfree, heq⟩ := Option.map_eq_some_iff.mp h
      cases heq
      simp [hfind, hfree]

/-- A notification adds its owner and nobody else. -/
theorem remoteSubscribe_owns (h : (r.remoteSubscribe owner filter qos hop).2.Owns x) :
    x = owner ∨ r.Owns x := by
  unfold remoteSubscribe at h
  split at h
  · exact .inr h
  · next i r' hnode =>
      obtain ⟨howner, hr'⟩ := findOrCreateNode_cases hnode
      have hcreate : r'.Owns x → x = owner ∨ r.Owns x := by
        rcases hr' with ⟨-, rfl⟩ | ⟨-, -, rfl⟩
        · exact .inr
        · exact fun h ↦ (setNode_owns h).imp_left fun hx ↦ hx.2.symm
      have hput : ∀ node : RemoteNode cfg, node.ownerId = owner →
          RouteTable.Owns { r' with nodes := Function.update r'.nodes i node } x →
            x = owner ∨ r.Owns x := fun node hid h ↦
        (setNode_owns h).elim (fun hx ↦ .inl (hx.2.symm.trans hid)) hcreate
      have hnodeId : ((r'.nodes i).heardFrom hop).ownerId = owner := by
        rw [RemoteNode.heardFrom_ownerId, howner]
      dsimp only at h
      generalize (r'.nodes i).heardFrom hop = node at h hnodeId
      split at h
      · exact hput node hnodeId h
      · next j _ =>
          have hput := hput { node with
            subs := Function.update node.subs j ⟨filter.take (MQTT_TOPIC_MAX - 1), qos, true⟩ }
            hnodeId
          dsimp only at h
          split_ifs at h
          · exact (nodeRoutesRefresh_owns h).elim (fun hx ↦ .inl (hx.trans hnodeId)) hput
          · exact (routeUpsert_owns h).elim .inl hput

theorem routeRemove_owns (h : (r.routeRemove owner filter).Owns x) : r.Owns x := by
  rcases h with h | h
  · exact .inl h
  · right
    rw [ownsRoute_iff] at h ⊢
    rcases h with ⟨k, huse, hid⟩ | ⟨k, huse, hid⟩
    · simp only [routeRemove] at huse hid
      split_ifs at huse hid
      exact .inl ⟨k, huse, hid⟩
    · simp only [routeRemove] at huse hid
      split_ifs at huse hid
      exact .inr ⟨k, huse, hid⟩

theorem clearNodeIfEmpty_owns {i : NodeSlot cfg} (h : (r.clearNodeIfEmpty i).Owns x) :
    r.Owns x := by
  unfold clearNodeIfEmpty at h
  split_ifs at h
  · exact h
  · exact (setNode_owns h).elim (fun hx ↦ (nomatch hx.1)) id

theorem remoteUnsubscribe_owns (h : (r.remoteUnsubscribe owner filter).2.Owns x) : r.Owns x := by
  unfold remoteUnsubscribe at h
  split at h
  · exact h
  · next i _ =>
      have hput : ∀ subs, RouteTable.Owns { r with
          nodes := Function.update r.nodes i { r.nodes i with subs := subs } } x → r.Owns x :=
        fun subs h ↦ (setNode_owns h).elim (fun hx ↦ .inl ⟨i, hx⟩) id
      dsimp only at h
      have h := clearNodeIfEmpty_owns h
      split_ifs at h
      · exact hput _ (routeRemove_owns h)
      · exact hput _ h

theorem removeNode_owns (h : (r.removeNode id).Owns x) : r.Owns x := by
  rcases h with ⟨k, huse, hid⟩ | h
  · simp only [removeNode] at huse hid
    split_ifs at huse hid
    · cases huse
    · exact .inl ⟨k, huse, hid⟩
  · right
    rw [ownsRoute_iff] at h ⊢
    rcases h with ⟨k, huse, hid⟩ | ⟨k, huse, hid⟩
    · simp only [removeNode] at huse hid
      split_ifs at huse hid
      exact .inl ⟨k, huse, hid⟩
    · simp only [removeNode] at huse hid
      split_ifs at huse hid
      exact .inr ⟨k, huse, hid⟩

/-! ## When a notification is passed on -/

/-- A notification tells the table something new, and there is room for it. -/
def Learns (r : RouteTable cfg) (owner : NodeId) (filter : CStr) (qos : UInt8) (hop : NodeId) :
    Prop :=
  match r.findNode owner with
  | none => r.freeNode.isSome
  | some i =>
      match (r.nodes i).findSub filter with
      | none => (r.nodes i).freeSub.isSome
      | some j => (r.nodes i).RouteChanges hop ∨ ((r.nodes i).subs j).qos ≠ qos

theorem remoteSubscribe_changed :
    (r.remoteSubscribe owner filter qos hop).1 = true ↔ r.Learns owner filter qos hop := by
  unfold remoteSubscribe Learns findOrCreateNode
  cases hfind : r.findNode owner with
  | none =>
      cases r.freeNode with
      | none => simp
      | some i =>
          -- a node just created has no next hop and no filters
          have hnew : ∀ node : RemoteNode cfg, node.subs = (RemoteNode.zeroed cfg).subs →
              node.findSub filter = none ∧ node.freeSub.isSome := by
            intro node hsubs
            constructor
            · simp [RemoteNode.findSub, hsubs, RemoteNode.zeroed]
            · simpa [RemoteNode.freeSub, hsubs, RemoteNode.zeroed, List.find?_isSome] using
                ⟨⟨0, cfg.remoteSubsPerNode_pos⟩⟩
          simp only [Option.map_some, Function.update_self, RemoteNode.heardFrom_findSub,
            RemoteNode.heardFrom_freeSub]
          obtain ⟨hnone, hfree⟩ := hnew { RemoteNode.zeroed cfg with
            ownerId := owner
            inUse := true } rfl
          obtain ⟨j, hj⟩ := Option.isSome_iff_exists.mp hfree
          simp [hnone, hj]
  | some i =>
      simp only [RemoteNode.heardFrom_findSub, RemoteNode.heardFrom_freeSub,
        RemoteNode.heardFrom_subs]
      cases (r.nodes i).findSub filter with
      | none => cases (r.nodes i).freeSub <;> simp
      | some j => simp

instance : Decidable (r.Learns owner filter qos hop) :=
  decidable_of_iff _ remoteSubscribe_changed

end RouteTable

/-! ## Which subscriptions it holds -/

namespace RouteTable

variable {r : RouteTable cfg} {o owner hop id : NodeId} {f filter : CStr} {qos : UInt8}

/-- The subscription of `owner` is in the table. -/
def Holds (r : RouteTable cfg) (owner : NodeId) (filter : CStr) : Prop :=
  ∃ i j, (r.nodes i).inUse = true ∧ (r.nodes i).ownerId = owner ∧
    ((r.nodes i).subs j).inUse = true ∧ ((r.nodes i).subs j).filter = filter

instance : Decidable (r.Holds owner filter) :=
  inferInstanceAs (Decidable (∃ i j, (r.nodes i).inUse = true ∧ (r.nodes i).ownerId = owner ∧
    ((r.nodes i).subs j).inUse = true ∧ ((r.nodes i).subs j).filter = filter))

theorem holds_congr {r' : RouteTable cfg} (h : r'.nodes = r.nodes) :
    r'.Holds owner filter ↔ r.Holds owner filter := by
  unfold Holds
  rw [h]

@[simp] theorem nodeRoutesRefresh_nodes {node : RemoteNode cfg} :
    (r.nodeRoutesRefresh node).nodes = r.nodes := by
  unfold nodeRoutesRefresh
  induction List.finRange cfg.remoteSubsPerNode generalizing r with
  | nil => rfl
  | cons i is ih =>
      rw [List.foldl_cons, ih]
      split_ifs
      · exact routeUpsert_nodes
      · rfl

/-- A new value of one node, if it keeps what the old one has. -/
theorem setNode_holds {i : NodeSlot cfg} {node : RemoteNode cfg} (h : r.Holds o f)
    (hnode : (r.nodes i).inUse = true → (r.nodes i).ownerId = o → ∀ j,
      ((r.nodes i).subs j).inUse = true → ((r.nodes i).subs j).filter = f →
        node.inUse = true ∧ node.ownerId = o ∧ (node.subs j).inUse = true ∧
          (node.subs j).filter = f) :
    RouteTable.Holds { r with nodes := Function.update r.nodes i node } o f := by
  obtain ⟨k, j, huse, howner, hsub, hfilter⟩ := h
  refine ⟨k, j, ?_⟩
  by_cases hk : k = i
  · subst hk
    simp only [Function.update_self]
    exact hnode huse howner j hsub hfilter
  · simp only [Function.update_of_ne hk]
    exact ⟨huse, howner, hsub, hfilter⟩

theorem findSub_or_freeSub {node : RemoteNode cfg} {j : Fin cfg.remoteSubsPerNode}
    (h : (node.findSub filter).or node.freeSub = some j) (huse : (node.subs j).inUse = true) :
    (node.subs j).filter = filter := by
  cases hfind : node.findSub filter with
  | some k =>
      rw [hfind] at h
      obtain rfl : k = j := Option.some.inj h
      have hk : (node.subs k).inUse = true ∧ (node.subs k).filter = filter := by
        simpa using List.find?_some hfind
      exact hk.2
  | none =>
      rw [hfind, Option.none_or] at h
      have hfree : (node.subs j).inUse = false := by simpa using List.find?_some h
      rw [huse] at hfree
      cases hfree

theorem take_filter (h : filter.length < MQTT_TOPIC_MAX) :
    filter.take (MQTT_TOPIC_MAX - 1) = filter := List.take_of_length_le (Nat.le_pred_of_lt h)

theorem findOrCreateNode_holds {i : NodeSlot cfg} {r' : RouteTable cfg}
    (hnode : r.findOrCreateNode owner = some (i, r')) (h : r.Holds o f) : r'.Holds o f := by
  obtain ⟨-, ⟨-, rfl⟩ | ⟨-, hfree, rfl⟩⟩ := findOrCreateNode_cases hnode
  · exact h
  · refine setNode_holds h fun huse ↦ ?_
    have hfree : (r.nodes i).inUse = false := by simpa using List.find?_some hfree
    rw [huse] at hfree
    cases hfree

/-- A notification takes nothing out of the table. -/
theorem remoteSubscribe_holds (hlen : filter.length < MQTT_TOPIC_MAX) (h : r.Holds o f) :
    (r.remoteSubscribe owner filter qos hop).2.Holds o f := by
  unfold remoteSubscribe
  split
  · exact h
  · next i r' hnode =>
      have h := findOrCreateNode_holds hnode h
      have hheard : ((r'.nodes i).heardFrom hop).inUse = (r'.nodes i).inUse := by
        unfold RemoteNode.heardFrom
        split_ifs <;> rfl
      dsimp only
      split
      · refine setNode_holds h fun huse howner j hsub hfilter ↦ ?_
        rw [hheard, RemoteNode.heardFrom_ownerId, RemoteNode.heardFrom_subs]
        exact ⟨huse, howner, hsub, hfilter⟩
      · next j hslot =>
          let sub : RemoteSub := ⟨filter.take (MQTT_TOPIC_MAX - 1), qos, true⟩
          let node := { (r'.nodes i).heardFrom hop with
            subs := Function.update ((r'.nodes i).heardFrom hop).subs j sub }
          have hput : RouteTable.Holds { r' with nodes := Function.update r'.nodes i node } o f := by
            refine setNode_holds h fun huse howner k hsub hfilter ↦ ?_
            dsimp only [node]
            rw [hheard, RemoteNode.heardFrom_ownerId]
            refine ⟨huse, howner, ?_⟩
            by_cases hk : k = j
            · subst hk
              rw [Function.update_self]
              refine ⟨rfl, ?_⟩
              dsimp only [sub]
              rw [take_filter hlen, ← hfilter, ← @RemoteNode.heardFrom_subs _ _ hop]
              refine (findSub_or_freeSub hslot ?_).symm
              rwa [RemoteNode.heardFrom_subs]
            · rw [Function.update_of_ne hk, RemoteNode.heardFrom_subs]
              exact ⟨hsub, hfilter⟩
          split_ifs
          · exact (holds_congr nodeRoutesRefresh_nodes).mpr hput
          · exact (holds_congr routeUpsert_nodes).mpr hput

/-- A withdrawal takes out one subscription. -/
theorem remoteUnsubscribe_holds (h : r.Holds o f) (hother : o ≠ owner ∨ f ≠ filter) :
    (r.remoteUnsubscribe owner filter).2.Holds o f := by
  unfold remoteUnsubscribe
  split
  · exact h
  · next i hfind =>
      have hi : (r.nodes i).ownerId = owner := by
        have hfound : (r.nodes i).inUse = true ∧ (r.nodes i).ownerId = owner := by
          simpa using List.find?_some hfind
        exact hfound.2
      dsimp only
      let subs := fun j ↦
        if ((r.nodes i).subs j).inUse = true ∧ ((r.nodes i).subs j).filter = filter then
          { (r.nodes i).subs j with inUse := false }
        else (r.nodes i).subs j
      let node := { r.nodes i with subs := subs }
      have hput : RouteTable.Holds { r with nodes := Function.update r.nodes i node } o f := by
        refine setNode_holds h fun huse howner j hsub hfilter ↦ ⟨huse, howner, ?_⟩
        have hne : f ≠ filter := hother.resolve_left fun hne ↦ hne (howner.symm.trans hi)
        dsimp only [node, subs]
        rw [if_neg fun hc ↦ hne (hfilter.symm.trans hc.2)]
        exact ⟨hsub, hfilter⟩
      have hclear : ∀ r' : RouteTable cfg, r'.Holds o f → (r'.clearNodeIfEmpty i).Holds o f := by
        intro r' h'
        unfold clearNodeIfEmpty
        split_ifs with hempty
        · exact h'
        · refine setNode_holds h' fun _ _ j hsub _ ↦ absurd ?_ hempty
          exact List.any_eq_true.mpr ⟨j, List.mem_finRange j, hsub⟩
      refine hclear _ ?_
      split_ifs
      · exact (holds_congr rfl).mpr hput
      · exact hput

/-! ## Which subscriptions have a route -/

section

variable {i : RouteSlot cfg} {free : Option (RouteSlot cfg)} {is : List (RouteSlot cfg)}

/-- A route for the subscription of `owner` is in the table. -/
def Routed (r : RouteTable cfg) (owner : NodeId) (filter : CStr) : Prop :=
  (∃ i, (r.exact i).state = .used ∧ (r.exact i).ownerId = owner ∧ (r.exact i).filter = filter) ∨
    ∃ i, (r.wildcard i).inUse = true ∧ (r.wildcard i).ownerId = owner ∧
      (r.wildcard i).filter = filter

instance : Decidable (r.Routed owner filter) := inferInstanceAs (Decidable (_ ∨ _))

theorem routed_iff : r.Routed owner filter ↔ ∃ hop, r.HasRoute owner hop filter := by
  constructor
  · rintro (⟨i, h, rfl, rfl⟩ | ⟨i, h, rfl, rfl⟩)
    · exact ⟨_, .exact i h⟩
    · exact ⟨_, .wildcard i h⟩
  · rintro ⟨hop, hroute⟩
    cases hroute with
    | exact i h => exact .inl ⟨i, h, rfl, rfl⟩
    | wildcard i h => exact .inr ⟨i, h, rfl, rfl⟩

theorem routed_congr {r' : RouteTable cfg} (hexact : r'.exact = r.exact)
    (hwildcard : r'.wildcard = r.wildcard) : r'.Routed owner filter ↔ r.Routed owner filter := by
  unfold Routed
  rw [hexact, hwildcard]

/-- A new value of one exact route, if it keeps what the old one is for. -/
theorem setExact_routed {route : ExactRoute} (h : r.Routed o f)
    (hroute : (r.exact i).state = .used →
      route.state = .used ∧ route.ownerId = (r.exact i).ownerId ∧
        route.filter = (r.exact i).filter) :
    RouteTable.Routed { r with exact := Function.update r.exact i route } o f := by
  refine h.imp_left fun ⟨k, huse, howner, hfilter⟩ ↦ ⟨k, ?_⟩
  by_cases hk : k = i
  · subst hk
    obtain ⟨huse', howner', hfilter'⟩ := hroute huse
    simp only [Function.update_self]
    exact ⟨huse', howner'.trans howner, hfilter'.trans hfilter⟩
  · simp only [Function.update_of_ne hk]
    exact ⟨huse, howner, hfilter⟩

theorem setWildcard_routed {route : WildcardRoute} (h : r.Routed o f)
    (hroute : (r.wildcard i).inUse = true →
      route.inUse = true ∧ route.ownerId = (r.wildcard i).ownerId ∧
        route.filter = (r.wildcard i).filter) :
    RouteTable.Routed { r with wildcard := Function.update r.wildcard i route } o f := by
  refine h.imp_right fun ⟨k, huse, howner, hfilter⟩ ↦ ⟨k, ?_⟩
  by_cases hk : k = i
  · subst hk
    obtain ⟨huse', howner', hfilter'⟩ := hroute huse
    simp only [Function.update_self]
    exact ⟨huse', howner'.trans howner, hfilter'.trans hfilter⟩
  · simp only [Function.update_of_ne hk]
    exact ⟨huse, howner, hfilter⟩

/-- The slot that is filled is not in use. -/
theorem exactUpsertSlot_free (hfree : ∀ j, free = some j → (r.exact j).state ≠ .used)
    (h : r.exactUpsertSlot owner filter free is = .inr (some i)) : (r.exact i).state ≠ .used := by
  induction is generalizing free with
  | nil => exact hfree i (Sum.inr.inj h)
  | cons j is ih =>
      unfold exactUpsertSlot at h
      split_ifs at h with hsame hempty hdeleted
      · have hi : free.getD j = i := Option.some.inj (Sum.inr.inj h)
        cases free with
        | none =>
            obtain rfl : j = i := hi
            simp [hempty]
        | some k =>
            obtain rfl : k = i := hi
            exact hfree k rfl
      · refine ih (fun k hk ↦ ?_) h
        obtain rfl : j = k := Option.some.inj hk
        simp [hdeleted.1]
      · exact ih hfree h

theorem exactRouteUpsert_routed (h : r.Routed o f) :
    (r.exactRouteUpsert owner hop filter).Routed o f := by
  unfold exactRouteUpsert
  split_ifs
  · exact h
  · split
    · exact setExact_routed h fun huse ↦ ⟨huse, rfl, rfl⟩
    · next i hslot =>
        have hnone : ∀ j, (none : Option (RouteSlot cfg)) = some j → (r.exact j).state ≠ .used :=
          fun j hj ↦ (nomatch hj)
        exact setExact_routed h fun huse ↦ absurd huse (exactUpsertSlot_free hnone hslot)
    · exact h

theorem wildcardRouteUpsert_routed (h : r.Routed o f) :
    (r.wildcardRouteUpsert owner hop filter).Routed o f := by
  unfold wildcardRouteUpsert
  split_ifs
  · exact h
  · split
    · exact setWildcard_routed h fun huse ↦ ⟨huse, rfl, rfl⟩
    · split
      · next i hslot =>
          have hfree : (r.wildcard i).inUse = false := by simpa using List.find?_some hslot
          refine setWildcard_routed h fun huse ↦ ?_
          rw [huse] at hfree
          cases hfree
      · exact h

theorem routeUpsert_routed (h : r.Routed o f) : (r.routeUpsert owner hop filter).Routed o f :=
  wildcardRouteUpsert_routed (exactRouteUpsert_routed h)

theorem nodeRoutesRefresh_routed {node : RemoteNode cfg} (h : r.Routed o f) :
    (r.nodeRoutesRefresh node).Routed o f := by
  unfold nodeRoutesRefresh
  induction List.finRange cfg.remoteSubsPerNode generalizing r with
  | nil => exact h
  | cons i is ih =>
      rw [List.foldl_cons]
      split_ifs
      · exact ih (routeUpsert_routed h)
      · exact ih h

/-- A notification takes no route out of the table. -/
theorem remoteSubscribe_routed (h : r.Routed o f) :
    (r.remoteSubscribe owner filter qos hop).2.Routed o f := by
  unfold remoteSubscribe
  split
  · exact h
  · next i r' hnode =>
      have h : r'.Routed o f := by
        obtain ⟨-, ⟨-, rfl⟩ | ⟨-, -, rfl⟩⟩ := findOrCreateNode_cases hnode
        · exact h
        · exact (routed_congr rfl rfl).mpr h
      dsimp only
      split
      · exact (routed_congr rfl rfl).mpr h
      · split_ifs
        · exact nodeRoutesRefresh_routed ((routed_congr rfl rfl).mpr h)
        · exact routeUpsert_routed ((routed_congr rfl rfl).mpr h)

theorem routeRemove_routed (h : r.Routed o f) (hother : o ≠ owner ∨ f ≠ filter) :
    (r.routeRemove owner filter).Routed o f := by
  have hne : ∀ {o' : NodeId} {f' : CStr}, o' = o → f' = f → ¬ (o' = owner ∧ f' = filter) := by
    rintro o' f' rfl rfl ⟨ho, hf⟩
    exact hother.elim (fun hn ↦ hn ho) fun hn ↦ hn hf
  refine h.imp (fun ⟨i, huse, howner, hfilter⟩ ↦ ⟨i, ?_⟩) fun ⟨i, huse, howner, hfilter⟩ ↦ ⟨i, ?_⟩
  · simp only [routeRemove]
    rw [if_neg fun hc ↦ hne howner hfilter hc.2]
    exact ⟨huse, howner, hfilter⟩
  · simp only [routeRemove]
    rw [if_neg fun hc ↦ hne howner hfilter hc.2]
    exact ⟨huse, howner, hfilter⟩

/-- A withdrawal takes out the route of one subscription. -/
theorem remoteUnsubscribe_routed (h : r.Routed o f) (hother : o ≠ owner ∨ f ≠ filter) :
    (r.remoteUnsubscribe owner filter).2.Routed o f := by
  unfold remoteUnsubscribe
  split
  · exact h
  · have hclear : ∀ {r' : RouteTable cfg} {i : NodeSlot cfg}, r'.Routed o f →
        (r'.clearNodeIfEmpty i).Routed o f := by
      intro r' i h'
      unfold clearNodeIfEmpty
      split_ifs
      · exact h'
      · exact (routed_congr rfl rfl).mpr h'
    refine hclear ?_
    split_ifs
    · exact routeRemove_routed ((routed_congr rfl rfl).mpr h) hother
    · exact (routed_congr rfl rfl).mpr h

end

end RouteTable

end MqttBroker
