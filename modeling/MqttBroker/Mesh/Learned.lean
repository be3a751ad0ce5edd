import MqttBroker.Mesh.Mirror

/-!
# What a table has learned

The subscriptions a table holds after each of the calls, and the brokers they
were heard from.
-/

namespace MqttBroker.RouteTable

variable {cfg : Config} {r : RouteTable cfg} {P : NodeId → NodeId → Prop}
  {o owner hop id : NodeId} {f filter : CStr} {qos : UInt8}

/-- There is a node for `owner` with a slot for the filter. -/
def Room (r : RouteTable cfg) (owner : NodeId) (filter : CStr) : Prop :=
  match r.findNode owner with
  | none => r.freeNode.isSome
  | some i => ((r.nodes i).findSub filter).isSome ∨ (r.nodes i).freeSub.isSome

instance : Decidable (r.Room owner filter) := by
  unfold Room
  split <;> infer_instance

/-- The owner and the next hop of every node are as `P` says. -/
def HeardBy (r : RouteTable cfg) (P : NodeId → NodeId → Prop) : Prop :=
  ∀ i, (r.nodes i).inUse = true → P (r.nodes i).ownerId (r.nodes i).nextHopId

theorem HeardBy.mono {Q : NodeId → NodeId → Prop} (h : r.HeardBy P) (hsub : ∀ o h, P o h → Q o h) :
    r.HeardBy Q := fun i hi ↦ hsub _ _ (h i hi)

theorem heardBy_init : (RouteTable.init cfg).HeardBy P := fun _ h ↦ (nomatch h)

theorem holds_iff_node : r.Holds o f ↔
    ∃ i, (r.nodes i).inUse = true ∧ (r.nodes i).ownerId = o ∧ (r.nodes i).HasSub f :=
  ⟨fun ⟨i, j, huse, howner, hsub⟩ ↦ ⟨i, huse, howner, j, hsub⟩,
    fun ⟨i, huse, howner, j, hsub⟩ ↦ ⟨i, j, huse, howner, hsub⟩⟩

theorem RemoteNode.hasSub_iff {node : RemoteNode cfg} :
    node.HasSub filter ↔ (node.findSub filter).isSome = true := by
  unfold RemoteNode.HasSub RemoteNode.findSub
  rw [List.find?_isSome]
  simp

/-! ## A notification -/

/-- The node of the owner after the call, where there is a slot. -/
theorem remoteSubscribe_node {i : NodeSlot cfg} {r₁ : RouteTable cfg}
    (hlen : filter.length < MQTT_TOPIC_MAX) (hroom : r.Room owner filter)
    (hnode : r.findOrCreateNode owner = some (i, r₁)) : ∃ node : RemoteNode cfg,
      (r.remoteSubscribe owner filter qos hop).2.nodes = Function.update r₁.nodes i node ∧
        node.inUse = true ∧ node.ownerId = owner ∧
        node.nextHopId = ((r₁.nodes i).heardFrom hop).nextHopId ∧
        ∀ f, node.HasSub f ↔ f = filter ∨ (r₁.nodes i).HasSub f := by
  obtain ⟨howner, hcase⟩ := findOrCreateNode_cases hnode
  have huse : (r₁.nodes i).inUse = true := by
    rcases hcase with ⟨hfind, rfl⟩ | ⟨-, -, rfl⟩
    · exact (findNode_some hfind).1
    · simp
  have hslot : ((r₁.nodes i).findSub filter).or (r₁.nodes i).freeSub ≠ none := by
    intro hnone
    obtain ⟨hsub, hfree⟩ := Option.or_eq_none_iff.mp hnone
    rcases hcase with ⟨hfind, rfl⟩ | ⟨-, -, rfl⟩
    · unfold Room at hroom
      rw [hfind] at hroom
      simp [hsub, hfree] at hroom
    · -- a new node has free slots
      rw [RemoteNode.freeSub, List.find?_eq_none] at hfree
      have hslot := hfree ⟨0, cfg.remoteSubsPerNode_pos⟩ (List.mem_finRange _)
      simp [RemoteNode.zeroed] at hslot
  unfold remoteSubscribe
  rw [hnode]
  dsimp only
  rw [RemoteNode.heardFrom_findSub, RemoteNode.heardFrom_freeSub, take_filter hlen]
  split
  · next hnone => exact absurd hnone hslot
  · next j hj =>
      refine ⟨{ (r₁.nodes i).heardFrom hop with
        subs := Function.update ((r₁.nodes i).heardFrom hop).subs j ⟨filter, qos, true⟩ }, ?_, ?_,
        RemoteNode.heardFrom_ownerId.trans howner, rfl, fun f ↦ ?_⟩
      · split_ifs
        · exact nodeRoutesRefresh_nodes
        · exact routeUpsert_nodes
      · rw [← huse]
        dsimp only
        unfold RemoteNode.heardFrom
        split_ifs <;> rfl
      · have hj' : (((r₁.nodes i).heardFrom hop).findSub filter).or
            ((r₁.nodes i).heardFrom hop).freeSub = some j := by
          rwa [RemoteNode.heardFrom_findSub, RemoteNode.heardFrom_freeSub]
        refine (hasSub_set hj').trans ?_
        simp only [RemoteNode.HasSub, RemoteNode.heardFrom_subs]

theorem Room.findOrCreateNode (hroom : r.Room owner filter) :
    ∃ i r₁, r.findOrCreateNode owner = some (i, r₁) := by
  unfold Room at hroom
  unfold RouteTable.findOrCreateNode
  split
  · exact ⟨_, _, rfl⟩
  · next hfind =>
      rw [hfind] at hroom
      obtain ⟨i, hi⟩ := Option.isSome_iff_exists.mp hroom
      exact ⟨i, _, by rw [hi]; rfl⟩

/-- Where there is room, the subscription is held after the call, and else what was held. -/
theorem remoteSubscribe_holds_iff (hlen : filter.length < MQTT_TOPIC_MAX)
    (hroom : r.Room owner filter) : (r.remoteSubscribe owner filter qos hop).2.Holds o f ↔
      o = owner ∧ f = filter ∨ r.Holds o f := by
  obtain ⟨i, r₁, hnode⟩ := hroom.findOrCreateNode
  obtain ⟨node, hnodes, huse, howner, -, hsub⟩ := remoteSubscribe_node hlen hroom hnode
  constructor
  · intro h
    obtain ⟨k, hk, hko, hkf⟩ := holds_iff_node.mp h
    rw [hnodes] at hk hko hkf
    obtain ⟨hi, hcase⟩ := findOrCreateNode_cases hnode
    by_cases hki : k = i
    · subst hki
      rw [Function.update_self] at hk hko hkf
      rcases (hsub f).mp hkf with rfl | hold
      · exact .inl ⟨hko.symm.trans howner, rfl⟩
      · rcases hcase with ⟨hfind, rfl⟩ | ⟨-, -, rfl⟩
        · exact .inr (holds_iff_node.mpr
            ⟨k, (findNode_some hfind).1, hi.trans (howner.symm.trans hko), hold⟩)
        · obtain ⟨j, hj, -⟩ := hold
          simp [RemoteNode.zeroed] at hj
    · rw [Function.update_of_ne hki] at hk hko hkf
      rcases hcase with ⟨-, rfl⟩ | ⟨-, -, rfl⟩
      · exact .inr (holds_iff_node.mpr ⟨k, hk, hko, hkf⟩)
      · dsimp only at hk hko hkf
        rw [Function.update_of_ne hki] at hk hko hkf
        exact .inr (holds_iff_node.mpr ⟨k, hk, hko, hkf⟩)
  · rintro (⟨rfl, rfl⟩ | h)
    · refine holds_iff_node.mpr ⟨i, ?_⟩
      rw [hnodes, Function.update_self]
      exact ⟨huse, howner, (hsub f).mpr (.inl rfl)⟩
    · exact remoteSubscribe_holds hlen h

/-- The call says that nothing has changed only where the subscription was held. -/
theorem holds_of_unchanged (hroom : r.Room owner filter)
    (h : (r.remoteSubscribe owner filter qos hop).1 = false) : r.Holds owner filter := by
  have hnot : ¬ r.Learns owner filter qos hop := fun hlearns ↦ by
    rw [remoteSubscribe_changed.mpr hlearns] at h
    cases h
  unfold Learns at hnot
  unfold Room at hroom
  split at hnot
  · next hfind =>
      rw [hfind] at hroom
      exact absurd hroom hnot
  · next i hfind =>
      rw [hfind] at hroom
      dsimp only at hroom
      obtain ⟨huse, howner⟩ := findNode_some hfind
      cases hsub : (r.nodes i).findSub filter with
      | none =>
          rw [hsub] at hnot hroom
          exact absurd (hroom.resolve_left (by simp)) hnot
      | some j =>
          exact holds_iff_node.mpr ⟨i, huse, howner, RemoteNode.hasSub_iff.mpr (by simp [hsub])⟩

theorem remoteSubscribe_heardBy (h : r.HeardBy P) (hP : P owner hop) :
    (r.remoteSubscribe owner filter qos hop).2.HeardBy P := by
  unfold remoteSubscribe
  split
  · exact h
  · next i r₁ hnode =>
      obtain ⟨howner, hcase⟩ := findOrCreateNode_cases hnode
      -- a new node takes the sender for its next hop
      have hi : P owner ((r₁.nodes i).heardFrom hop).nextHopId := by
        unfold RemoteNode.heardFrom
        split_ifs with hchanges
        · exact hP
        · rcases hcase with ⟨hfind, rfl⟩ | ⟨-, -, rfl⟩
          · exact howner ▸ h i (findNode_some hfind).1
          · simp [RemoteNode.RouteChanges, RemoteNode.zeroed] at hchanges
      have hothers : ∀ k, k ≠ i → (r₁.nodes k).inUse = true →
          P (r₁.nodes k).ownerId (r₁.nodes k).nextHopId := by
        intro k hk huse
        rcases hcase with ⟨-, rfl⟩ | ⟨-, -, rfl⟩
        · exact h k huse
        · dsimp only at huse ⊢
          rw [Function.update_of_ne hk] at huse ⊢
          exact h k huse
      have hput : ∀ node : RemoteNode cfg, node.ownerId = owner →
          node.nextHopId = ((r₁.nodes i).heardFrom hop).nextHopId → ∀ r₂ : RouteTable cfg,
          r₂.nodes = Function.update r₁.nodes i node → r₂.HeardBy P := by
        intro node hid hhop r₂ hr₂ k huse
        rw [hr₂] at huse ⊢
        by_cases hk : k = i
        · subst hk
          rw [Function.update_self, hid, hhop]
          exact hi
        · rw [Function.update_of_ne hk] at huse ⊢
          exact hothers k hk huse
      dsimp only
      split
      · exact hput _ (RemoteNode.heardFrom_ownerId.trans howner) rfl _ rfl
      · next j _ =>
        refine hput { (r₁.nodes i).heardFrom hop with
          subs := Function.update ((r₁.nodes i).heardFrom hop).subs j
            ⟨filter.take (MQTT_TOPIC_MAX - 1), qos, true⟩ }
          (RemoteNode.heardFrom_ownerId.trans howner) rfl _ ?_
        split_ifs
        · exact nodeRoutesRefresh_nodes
        · exact routeUpsert_nodes

/-! ## A withdrawal -/

/-- The nodes after the call are those before, one of them without the filter or cleared. -/
theorem remoteUnsubscribe_node {k : NodeSlot cfg}
    (huse : ((r.remoteUnsubscribe owner filter).2.nodes k).inUse = true) :
    (r.nodes k).inUse = true ∧
      ((r.remoteUnsubscribe owner filter).2.nodes k).ownerId = (r.nodes k).ownerId ∧
      ((r.remoteUnsubscribe owner filter).2.nodes k).nextHopId = (r.nodes k).nextHopId ∧
      ∀ f, ((r.remoteUnsubscribe owner filter).2.nodes k).HasSub f → (r.nodes k).HasSub f ∧
        (r.findNode owner = some k → f ≠ filter) := by
  unfold remoteUnsubscribe at huse ⊢
  split at huse
  · next hfind =>
      rw [hfind]
      exact ⟨huse, rfl, rfl, fun f hf ↦ ⟨hf, fun h ↦ by cases h⟩⟩
  · next i hfind =>
      rw [hfind]
      dsimp only at huse ⊢
      set subs : Fin cfg.remoteSubsPerNode → RemoteSub := fun j ↦
        if ((r.nodes i).subs j).inUse = true ∧ ((r.nodes i).subs j).filter = filter then
          { (r.nodes i).subs j with inUse := false }
        else (r.nodes i).subs j with hsubs
      have hclear : ∀ r₁ : RouteTable cfg, ((r₁.clearNodeIfEmpty i).nodes k).inUse = true →
          (r₁.clearNodeIfEmpty i).nodes k = r₁.nodes k := by
        intro r₁ h
        unfold clearNodeIfEmpty at h ⊢
        split_ifs at h ⊢
        · rfl
        · by_cases hk : k = i
          · subst hk
            simp [RemoteNode.zeroed] at h
          · dsimp only
            rw [Function.update_of_ne hk]
      have hnodes : ∀ c : Bool, ((if c = true then
          RouteTable.routeRemove { r with
            nodes := Function.update r.nodes i { r.nodes i with subs := subs } } owner filter
          else { r with nodes := Function.update r.nodes i { r.nodes i with subs := subs } }) :
            RouteTable cfg).nodes =
          Function.update r.nodes i { r.nodes i with subs := subs } := by
        intro c
        split_ifs <;> rfl
      have hafter := (hclear _ huse).trans (congrFun (hnodes _) k)
      rw [hafter] at huse ⊢
      by_cases hk : k = i
      · subst hk
        rw [Function.update_self] at huse ⊢
        refine ⟨huse, rfl, rfl, ?_⟩
        rintro f ⟨j, hj, hjf⟩
        simp only [hsubs] at hj hjf
        split_ifs at hj hjf with hdrop
        exact ⟨⟨j, hj, hjf⟩, fun _ hf ↦ hdrop ⟨hj, hjf.trans hf⟩⟩
      · rw [Function.update_of_ne hk] at huse ⊢
        exact ⟨huse, rfl, rfl, fun f hf ↦ ⟨hf, fun h ↦ absurd (Option.some.inj h).symm hk⟩⟩

theorem remoteUnsubscribe_holds_iff (hr : r.NodesOk) :
    (r.remoteUnsubscribe owner filter).2.Holds o f ↔ r.Holds o f ∧ ¬ (o = owner ∧ f = filter) := by
  constructor
  · intro h
    obtain ⟨k, hk, hko, hkf⟩ := holds_iff_node.mp h
    obtain ⟨huse, howner, -, hsub⟩ := remoteUnsubscribe_node hk
    obtain ⟨hold, hother⟩ := hsub f hkf
    refine ⟨holds_iff_node.mpr ⟨k, huse, howner.symm.trans hko, hold⟩, ?_⟩
    rintro ⟨rfl, rfl⟩
    cases hfind : r.findNode o with
    | none => exact findNode_none hfind k huse (howner.symm.trans hko)
    | some i =>
        obtain ⟨hi, hio⟩ := findNode_some hfind
        obtain rfl := hr.owner_once i k hi huse (hio.trans (hko.symm.trans howner))
        exact hother hfind rfl
  · rintro ⟨h, hother⟩
    exact remoteUnsubscribe_holds h (not_and_or.mp hother)

/-- The call says whether the subscription was held. -/
theorem remoteUnsubscribe_changed (hr : r.NodesOk) :
    (r.remoteUnsubscribe owner filter).1 = true ↔ r.Holds owner filter := by
  unfold remoteUnsubscribe
  split
  · next hfind =>
      refine iff_of_false Bool.false_ne_true fun h ↦ ?_
      obtain ⟨k, hk, hko, -⟩ := holds_iff_node.mp h
      exact findNode_none hfind k hk hko
  · next i hfind =>
      obtain ⟨huse, howner⟩ := findNode_some hfind
      dsimp only
      rw [← RemoteNode.hasSub_iff]
      constructor
      · exact fun h ↦ holds_iff_node.mpr ⟨i, huse, howner, h⟩
      · intro h
        obtain ⟨k, hk, hko, hkf⟩ := holds_iff_node.mp h
        obtain rfl := hr.owner_once k i hk huse (hko.trans howner.symm)
        exact hkf

theorem remoteUnsubscribe_heardBy (h : r.HeardBy P) :
    (r.remoteUnsubscribe owner filter).2.HeardBy P := by
  intro k hk
  obtain ⟨huse, howner, hhop, -⟩ := remoteUnsubscribe_node hk
  rw [howner, hhop]
  exact h k huse

/-! ## A broker that goes -/

theorem removeNode_node {k : NodeSlot cfg} : ((r.removeNode id).nodes k).inUse = true ↔
    (r.nodes k).inUse = true ∧ (r.nodes k).ownerId ≠ id ∧ (r.nodes k).nextHopId ≠ id := by
  dsimp only [removeNode]
  split_ifs with h
  · simp only [RemoteNode.zeroed, Bool.false_eq_true, false_iff]
    rintro ⟨-, howner, hhop⟩
    exact h.2.elim howner hhop
  · rw [not_and, not_or] at h
    exact ⟨fun huse ↦ ⟨huse, h huse⟩, fun huse ↦ huse.1⟩

theorem removeNode_kept {k : NodeSlot cfg} (h : ((r.removeNode id).nodes k).inUse = true) :
    (r.removeNode id).nodes k = r.nodes k := by
  dsimp only [removeNode] at h ⊢
  split_ifs at h ⊢
  · cases h
  · rfl

theorem removeNode_heardBy (h : r.HeardBy P) :
    (r.removeNode id).HeardBy fun o hop ↦ P o hop ∧ o ≠ id ∧ hop ≠ id := by
  intro k hk
  obtain ⟨huse, hne⟩ := removeNode_node.mp hk
  rw [removeNode_kept hk]
  exact ⟨h k huse, hne⟩

/-- Where the nodes behind a broker are those of the owners in `B`, these go. -/
theorem removeNode_holds_iff {B : NodeId → Prop} (h : r.HeardBy P)
    (hB : ∀ o hop, P o hop → (B o ↔ o = id ∨ hop = id)) :
    (r.removeNode id).Holds o f ↔ r.Holds o f ∧ ¬ B o := by
  constructor
  · intro hholds
    obtain ⟨k, hk, hko, hkf⟩ := holds_iff_node.mp hholds
    obtain ⟨huse, hne⟩ := removeNode_node.mp hk
    rw [removeNode_kept hk] at hko hkf
    refine ⟨holds_iff_node.mpr ⟨k, huse, hko, hkf⟩, fun hbehind ↦ ?_⟩
    exact ((hB _ _ (h k huse)).mp (hko.symm ▸ hbehind)).elim hne.1 hne.2
  · rintro ⟨hholds, hbehind⟩
    obtain ⟨k, huse, hko, hkf⟩ := holds_iff_node.mp hholds
    have hk : ((r.removeNode id).nodes k).inUse = true := by
      refine removeNode_node.mpr ⟨huse, not_or.mp fun hor ↦ hbehind ?_⟩
      exact hko ▸ (hB _ _ (h k huse)).mpr hor
    refine holds_iff_node.mpr ⟨k, hk, ?_⟩
    rw [removeNode_kept hk]
    exact ⟨hko, hkf⟩

end MqttBroker.RouteTable
