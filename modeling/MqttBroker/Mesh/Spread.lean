import MqttBroker.Mesh.Loops

/-!
# Which brokers a publish reaches

A broker that handles a P2P_PUBLISH for the first time passes it on to the next hops of its
routes, but for the one that the frame came from.  The shard owner, where it is a neighbour, is
the only broker that the publisher itself sends to.
-/

namespace MqttBroker

open Observer

variable {cfg : Config} {N : Type}

/-! ## Next hops -/

namespace RouteTable

variable {r : RouteTable cfg} {topic : CStr} {exclude : Option NodeId} {out : List NodeId}
  {hops : Finset NodeId}

/-- The hops of all routes in use are among a few ids. -/
def HopsAmong (r : RouteTable cfg) (hops : Finset NodeId) : Prop :=
  hops.card ≤ cfg.peerMax ∧ ∀ owner hop filter, r.HasRoute owner hop filter → hop ∈ hops

/-- What has been collected is full only when it holds every hop. -/
theorem HopsAmong.mem_of_full (h : r.HopsAmong hops) (hnodup : out.Nodup)
    (hout : ∀ x ∈ out, x ∈ hops) (hfull : cfg.peerMax ≤ out.length) {hop : NodeId}
    (hhop : hop ∈ hops) : hop ∈ out := by
  have hsub : out.toFinset ⊆ hops := fun x hx ↦ hout x (List.mem_toFinset.mp hx)
  have hcard : hops.card ≤ out.toFinset.card := by
    rw [List.toFinset_card_of_nodup hnodup]
    exact h.1.trans hfull
  exact List.mem_toFinset.mp (Finset.eq_of_subset_of_card_le hsub hcard ▸ hhop)

/-- The exact routes that are looked at. -/
def ExactHop (r : RouteTable cfg) (topic : CStr) (is : List (RouteSlot cfg)) (hop : NodeId) :
    Prop :=
  ∃ i ∈ is.takeWhile fun i ↦ (r.exact i).state ≠ .empty,
    (r.exact i).state = .used ∧ (r.exact i).filter = topic ∧ (r.exact i).nextHopId = hop

theorem exactHop_cons {i : RouteSlot cfg} (hi : (r.exact i).state ≠ .empty)
    {is : List (RouteSlot cfg)} {hop : NodeId} : r.ExactHop topic (i :: is) hop ↔
      ((r.exact i).state = .used ∧ (r.exact i).filter = topic ∧ (r.exact i).nextHopId = hop) ∨
        r.ExactHop topic is hop := by
  unfold ExactHop
  rw [List.takeWhile_cons_of_pos (by simpa using hi)]
  simp only [List.mem_cons, or_and_right, exists_or, exists_eq_left]

theorem HopsAmong.exactHop (h : r.HopsAmong hops) {is : List (RouteSlot cfg)} {hop : NodeId}
    (hhop : r.ExactHop topic is hop) : hop ∈ hops := by
  obtain ⟨i, -, hused, -, rfl⟩ := hhop
  exact h.2 _ _ _ (.exact i hused)

/-- Nothing is collected twice. -/
theorem nodup_append_singleton {x : NodeId} (hnodup : out.Nodup) (hnot : x ∉ out) :
    (out ++ [x]).Nodup := by
  rw [← List.concat_eq_append]
  exact hnodup.concat hnot

variable (topic exclude) in
theorem exactHops_spec (h : r.HopsAmong hops) (hnodup : out.Nodup)
    (hout : ∀ x ∈ out, x ∈ hops) (is : List (RouteSlot cfg)) :
    (r.exactHops topic exclude out is).Nodup ∧
      (∀ x ∈ r.exactHops topic exclude out is, x ∈ hops) ∧
      ∀ hop, hop ∈ r.exactHops topic exclude out is ↔
        hop ∈ out ∨ some hop ≠ exclude ∧ r.ExactHop topic is hop := by
  induction is generalizing out with
  | nil => exact ⟨hnodup, hout, fun hop ↦ by simp [exactHops, ExactHop]⟩
  | cons i is ih =>
      unfold exactHops
      by_cases hempty : (r.exact i).state = .empty
      · rw [if_pos (.inr hempty)]
        refine ⟨hnodup, hout, fun hop ↦ (or_iff_left ?_).symm⟩
        rintro ⟨-, j, hj, -⟩
        rw [List.takeWhile_cons_of_neg (by simpa using hempty)] at hj
        cases hj
      · by_cases hfull : cfg.peerMax ≤ out.length
        · rw [if_pos (.inl hfull)]
          refine ⟨hnodup, hout, fun hop ↦ (or_iff_left_of_imp ?_).symm⟩
          exact fun hhop ↦ h.mem_of_full hnodup hout hfull (h.exactHop hhop.2)
        · rw [if_neg (not_or.mpr ⟨hfull, hempty⟩)]
          simp only [exactHop_cons hempty]
          split_ifs with hadd
          · obtain ⟨hused, hfilter, hexclude, hnot⟩ := hadd
            have hout' : ∀ x ∈ out ++ [(r.exact i).nextHopId], x ∈ hops := by
              intro x hx
              rcases List.mem_append.mp hx with hx | hx
              · exact hout x hx
              · rw [List.mem_singleton.mp hx]
                exact h.2 _ _ _ (.exact i hused)
            obtain ⟨hn, ho, hmem⟩ := ih (nodup_append_singleton hnodup hnot) hout'
            refine ⟨hn, ho, fun hop ↦ (hmem hop).trans ?_⟩
            rw [List.mem_append, List.mem_singleton, or_assoc]
            refine or_congr_right ?_
            constructor
            · rintro (rfl | ⟨hne, hhop⟩)
              · exact ⟨hexclude, .inl ⟨hused, hfilter, rfl⟩⟩
              · exact ⟨hne, .inr hhop⟩
            · rintro ⟨hne, ⟨-, -, rfl⟩ | hhop⟩
              · exact .inl rfl
              · exact .inr ⟨hne, hhop⟩
          · obtain ⟨hn, ho, hmem⟩ := ih hnodup hout
            refine ⟨hn, ho, fun hop ↦ (hmem hop).trans ⟨?_, ?_⟩⟩
            · exact Or.imp_right fun hhop ↦ ⟨hhop.1, .inr hhop.2⟩
            · rintro (hhop | ⟨hne, ⟨hused, hfilter, rfl⟩ | hhop⟩)
              · exact .inl hhop
              · by_contra hnot
                exact hadd ⟨hused, hfilter, hne, fun hmem ↦ hnot (.inl hmem)⟩
              · exact .inr ⟨hne, hhop⟩

/-- The wildcard routes that are looked at. -/
def WildcardHop (r : RouteTable cfg) (topic : CStr) (is : List (RouteSlot cfg)) (hop : NodeId) :
    Prop :=
  ∃ i ∈ is, (r.wildcard i).inUse = true ∧
    Router.topicMatch (r.wildcard i).filter topic = true ∧ (r.wildcard i).nextHopId = hop

variable (topic exclude) in
theorem wildcardHop_spec (h : r.HopsAmong hops) (hnodup : out.Nodup)
    (hout : ∀ x ∈ out, x ∈ hops) (i : RouteSlot cfg) :
    (r.wildcardHop topic exclude out i).Nodup ∧
      (∀ x ∈ r.wildcardHop topic exclude out i, x ∈ hops) ∧
      ∀ hop, hop ∈ r.wildcardHop topic exclude out i ↔
        hop ∈ out ∨ some hop ≠ exclude ∧ r.WildcardHop topic [i] hop := by
  unfold wildcardHop WildcardHop
  simp only [List.mem_singleton, exists_eq_left]
  split_ifs with hadd
  · obtain ⟨-, huse, hexclude, hnot, hmatch⟩ := hadd
    refine ⟨nodup_append_singleton hnodup hnot, fun x hx ↦ ?_, fun hop ↦ ?_⟩
    · rcases List.mem_append.mp hx with hx | hx
      · exact hout x hx
      · rw [List.mem_singleton.mp hx]
        exact h.2 _ _ _ (.wildcard i huse)
    · rw [List.mem_append, List.mem_singleton]
      refine or_congr_right ⟨?_, ?_⟩
      · rintro rfl
        exact ⟨hexclude, huse, hmatch, rfl⟩
      · rintro ⟨-, -, -, rfl⟩
        rfl
  · refine ⟨hnodup, hout, fun hop ↦ (or_iff_left_of_imp ?_).symm⟩
    rintro ⟨hne, huse, hmatch, rfl⟩
    by_contra hnot
    have hfull : cfg.peerMax ≤ out.length := by
      by_contra hroom
      exact hadd ⟨not_le.mp hroom, huse, hne, hnot, hmatch⟩
    exact hnot (h.mem_of_full hnodup hout hfull (h.2 _ _ _ (.wildcard i huse)))

theorem wildcardHops_spec (h : r.HopsAmong hops) (hnodup : out.Nodup)
    (hout : ∀ x ∈ out, x ∈ hops) (is : List (RouteSlot cfg)) (hop : NodeId) :
    hop ∈ is.foldl (r.wildcardHop topic exclude) out ↔
      hop ∈ out ∨ some hop ≠ exclude ∧ r.WildcardHop topic is hop := by
  induction is generalizing out with
  | nil => simp [WildcardHop]
  | cons i is ih =>
      obtain ⟨hn, ho, hmem⟩ := wildcardHop_spec topic exclude h hnodup hout i
      have hcons : r.WildcardHop topic (i :: is) hop ↔
          r.WildcardHop topic [i] hop ∨ r.WildcardHop topic is hop := by
        simp [WildcardHop]
      rw [List.foldl_cons, ih hn ho, hmem, or_assoc, ← and_or_left, hcons]

/-- All routes that are looked at. -/
theorem mem_findNextHops_iff (h : r.HopsAmong hops) {hop : NodeId} :
    hop ∈ r.findNextHops topic exclude ↔ some hop ≠ exclude ∧
      ((filterIsExact topic = true ∧ r.ExactHop topic (probe cfg topic) hop) ∨
        r.WildcardHop topic (List.finRange cfg.routeMax) hop) := by
  unfold findNextHops
  by_cases hexact : filterIsExact topic = true
  · obtain ⟨hn, ho, hmem⟩ := exactHops_spec topic exclude h List.nodup_nil (by simp)
      (probe cfg topic)
    rw [if_pos hexact, wildcardHops_spec h hn ho, hmem]
    simp [hexact, and_or_left]
  · rw [if_neg hexact, wildcardHops_spec h List.nodup_nil (by simp)]
    simp [hexact]

/-- The hops without one of them. -/
theorem mem_findNextHops_exclude (h : r.HopsAmong hops) {hop : NodeId} (e : NodeId) :
    hop ∈ r.findNextHops topic (some e) ↔ hop ∈ r.findNextHops topic none ∧ hop ≠ e := by
  rw [mem_findNextHops_iff h, mem_findNextHops_iff h, and_comm]
  simp

end RouteTable

/-! ## The network -/

/-- Every send succeeds. -/
def allOk : N → Bool := fun _ ↦ true

namespace P2pNet

variable (net : P2pNet cfg N)

/-- All brokers are routers with ids of their own, and every next hop in a route table is a
connected neighbour. -/
structure Quiescent : Prop where
  router : ∀ n, net.router n = true
  id_inj : Function.Injective net.id
  hops : ∀ n owner hop filter, (net.routes n).HasRoute owner hop filter →
    ∃ m ∈ net.peers n, net.id m = hop

/-- The next hops of a broker for a topic. -/
def hops (n : N) (topic : CStr) : List N := net.sendFromRouter n allOk topic none

/-- The brokers that the publisher sends a publish to. -/
def firstOf (a : N) (topic : CStr) (owner : NodeId) : List N := net.firstHops a allOk topic owner

/-- From one of the first brokers to another, each the next hop of the one before; but no broker
that the publisher sends to passes it back. -/
inductive Reaches (a : N) (topic : CStr) (owner : NodeId) : N → Prop where
  | first {y : N} (h : y ∈ net.firstOf a topic owner) : Reaches a topic owner y
  | next {x y : N} (h : Reaches a topic owner x) (hy : y ∈ net.hops x topic)
      (hback : y = a → x ∉ net.firstOf a topic owner) : Reaches a topic owner y

variable {net}

theorem sendTo_iff (h : Function.Injective net.id) {n m : N} {hop : NodeId} :
    net.sendTo n allOk hop = some m ↔ m ∈ net.peers n ∧ net.id m = hop := by
  refine ⟨sendTo_mem, ?_⟩
  rintro ⟨hm, rfl⟩
  have hfound : ((net.peers n).find? fun k ↦ net.id k = net.id m).isSome = true := by
    rw [List.find?_isSome]
    exact ⟨m, hm, by simp⟩
  obtain ⟨k, hk⟩ := Option.isSome_iff_exists.mp hfound
  have hid : net.id k = net.id m := by simpa using List.find?_some hk
  rw [sendTo, hk, h hid]
  rfl

theorem mem_sendFromRouter (h : Function.Injective net.id) {n m : N} {topic : CStr}
    {exclude : Option NodeId} : m ∈ net.sendFromRouter n allOk topic exclude ↔
      m ∈ net.peers n ∧ net.id m ∈ (net.routes n).findNextHops topic exclude := by
  unfold sendFromRouter
  rw [List.mem_filterMap]
  simp only [sendTo_iff h]
  constructor
  · rintro ⟨hop, hhop, hm, rfl⟩
    exact ⟨hm, hhop⟩
  · rintro ⟨hm, hhop⟩
    exact ⟨_, hhop, hm, rfl⟩

theorem Quiescent.hopsAmong [DecidableEq N] (h : net.Quiescent) (n : N) :
    (net.routes n).HopsAmong ((net.peers n).toFinset.image net.id) := by
  refine ⟨?_, fun owner hop filter hroute ↦ ?_⟩
  · exact Finset.card_image_le.trans ((List.toFinset_card_le _).trans (net.peers_le n))
  · obtain ⟨m, hm, rfl⟩ := h.hops n owner hop filter hroute
    exact Finset.mem_image_of_mem _ (List.mem_toFinset.mpr hm)

/-- A broker that has a frame from `z` passes it on to its other next hops. -/
theorem Quiescent.mem_relayed [DecidableEq N] (h : net.Quiescent) {x y z : N} {topic : CStr} :
    y ∈ net.sendFromRouter x allOk topic (some (net.id z)) ↔ y ∈ net.hops x topic ∧ y ≠ z := by
  rw [P2pNet.hops, mem_sendFromRouter h.id_inj, mem_sendFromRouter h.id_inj,
    RouteTable.mem_findNextHops_exclude (h.hopsAmong x), h.id_inj.ne_iff, and_assoc]

/-- The shard owner is sent to alone; otherwise all next hops are. -/
theorem firstOf_cases (a : N) (topic : CStr) (owner : NodeId) :
    (∃ o, net.firstOf a topic owner = [o]) ∨
      ∀ y ∈ net.hops a topic, y ∈ net.firstOf a topic owner := by
  have hrouted : ∀ y ∈ net.hops a topic, y ∈ (if net.sendFromRouter a allOk topic none = [] then
      net.flood a allOk else net.sendFromRouter a allOk topic none) := by
    intro y hy
    have hne : net.sendFromRouter a allOk topic none ≠ [] := List.ne_nil_of_mem hy
    rwa [if_neg hne]
  unfold firstOf firstHops
  dsimp only
  by_cases hself : owner = net.id a
  · rw [if_pos hself]
    exact .inr hrouted
  · rw [if_neg hself]
    split
    · exact .inl ⟨_, rfl⟩
    · exact .inr hrouted

end P2pNet

/-! ## Runs after a publish -/

section

variable [DecidableEq N] (net : P2pNet cfg N)

/-- The step hands a publish with this key to `topic_publish_remote`. -/
def HandsKey (k : SeenMsg) (s : ForwardState cfg N) (e : PeerEvent N) (x : N) : Prop :=
  match e with
  | .publish _ _ _ _ => False
  | .deliver i _ => ∃ f, s.flight[i]? = some f ∧ f.msg.key = k ∧ f.dst = x ∧ s.HandsOver f

/-- The network, and the brokers that have handed over the publish with this key. -/
def handing (k : SeenMsg) : System (ForwardState cfg N) (PeerEvent N) (N → Prop) where
  step s e := forward net s e
  note s e handed := fun x ↦ handed x ∨ HandsKey k s e x

/-- Every send succeeds, no other publish gets the key, and none takes its slot in a cache. -/
def Calm (k : SeenMsg) (s : ForwardState cfg N) (_ : N → Prop) : PeerEvent N → Prop
  | .publish m pub _ ok =>
      ok = allOk ∧ (net.message m (s.localSeq m + 1) pub).key ≠ k
  | .deliver i ok => ok = allOk ∧ ∀ f, s.flight[i]? = some f → f.msg.key ≠ k →
      s.seen f.dst (seenIndex cfg f.msg.key) ≠ k

/-- A publish that broker `a` accepts in state `s₀`. -/
structure Accepted (s₀ : ForwardState cfg N) (a : N) (pub : MqttPublish) : Prop where
  ok : localPublishOk pub = true
  frame : (buildPublishFrame (net.message a (s₀.localSeq a + 1) pub)).isSome = true
  fresh : ∀ x, s₀.seen x (seenIndex cfg (net.message a (s₀.localSeq a + 1) pub).key) ≠
    (net.message a (s₀.localSeq a + 1) pub).key
  unsent : ∀ f ∈ s₀.flight, f.msg.key ≠ (net.message a (s₀.localSeq a + 1) pub).key

/-- In every order of deliveries, when no frame of the publish is left, every other broker with a
subscription has handed it over. -/
def DeliveredToAll (s₀ : ForwardState cfg N) (a : N) (pub : MqttPublish) (owner : NodeId)
    (subscribed : N → Prop) : Prop :=
  let k := (net.message a (s₀.localSeq a + 1) pub).key
  ∀ s₁ s handed, forward net s₀ (.publish a pub owner allOk) = some s₁ →
    Reach (handing net k) (Calm net k) s₁ (fun _ ↦ False) s handed →
    (∀ f ∈ s.flight, f.msg.key ≠ k) → ∀ x, subscribed x → x ≠ a → handed x

end

/-! ## The invariant -/

section

variable [DecidableEq N] {net : P2pNet cfg N} {a : N} {owner : NodeId} {msg : P2pPublishMsg}
  {s s' : ForwardState cfg N} {handed : N → Prop}

/-- A frame of the publish is under way to this broker. -/
def Underway (msg : P2pPublishMsg) (s : ForwardState cfg N) (y : N) : Prop :=
  ∃ f ∈ s.flight, f.msg.key = msg.key ∧ f.dst = y

/-- What every run keeps after broker `a` has sent `msg`. -/
structure SpreadInv (net : P2pNet cfg N) (a : N) (owner : NodeId) (msg : P2pPublishMsg)
    (s : ForwardState cfg N) (handed : N → Prop) : Prop where
  msgs : ∀ f ∈ s.flight, f.msg.key = msg.key → f.msg = msg
  seen : ∀ x, s.seen x (seenIndex cfg msg.key) = msg.key ↔ handed x
  /-- a frame comes from the publisher or from a broker that has handed the publish over -/
  src : ∀ f ∈ s.flight, f.msg.key = msg.key →
    (f.src = a ∧ f.dst ∈ net.firstOf a msg.topic owner) ∨ handed f.src
  first : ∀ y ∈ net.firstOf a msg.topic owner, handed y ∨ Underway msg s y
  passed : ∀ x, handed x → ∃ z, ((z = a ∧ x ∈ net.firstOf a msg.topic owner) ∨ handed z) ∧
    ∀ y ∈ net.hops x msg.topic, y ≠ z → handed y ∨ Underway msg s y
  /-- a broker that the publisher sends to alone is the first to hand it over -/
  lone : ∀ o x, net.firstOf a msg.topic owner = [o] → handed x → handed o
  flight_sound : ∀ f ∈ s.flight, f.msg.key = msg.key →
    net.Reaches a msg.topic owner f.dst ∨
      f.dst = a ∧ ∀ y ∈ net.hops a msg.topic, net.Reaches a msg.topic owner y
  handed_sound : ∀ x, handed x → net.Reaches a msg.topic owner x ∨
    x = a ∧ ∀ y ∈ net.hops a msg.topic, net.Reaches a msg.topic owner y

omit [DecidableEq N] in
/-- Nothing changes for the publish. -/
theorem SpreadInv.quiet (h : SpreadInv net a owner msg s handed)
    (hflight : ∀ f, f.msg.key = msg.key → (f ∈ s'.flight ↔ f ∈ s.flight))
    (hseen : ∀ x, s'.seen x (seenIndex cfg msg.key) = msg.key ↔
      s.seen x (seenIndex cfg msg.key) = msg.key) : SpreadInv net a owner msg s' handed := by
  have hunderway : ∀ y, Underway msg s y → Underway msg s' y := by
    rintro y ⟨f, hf, hkey, hdst⟩
    exact ⟨f, (hflight f hkey).mpr hf, hkey, hdst⟩
  refine ⟨fun f hf hkey ↦ h.msgs f ((hflight f hkey).mp hf) hkey,
    fun x ↦ (hseen x).trans (h.seen x), fun f hf hkey ↦ h.src f ((hflight f hkey).mp hf) hkey,
    fun y hy ↦ (h.first y hy).imp_right (hunderway y), fun x hx ↦ ?_, h.lone,
    fun f hf hkey ↦ h.flight_sound f ((hflight f hkey).mp hf) hkey, h.handed_sound⟩
  obtain ⟨z, hz, hpassed⟩ := h.passed x hx
  exact ⟨z, hz, fun y hy hne ↦ (hpassed y hy hne).imp_right (hunderway y)⟩

omit [DecidableEq N] in
/-- What is left under way when frame `f` is handled. -/
theorem Underway.deliver {i : ℕ} {f : PeerFrame N} (hf : s.flight[i]? = some f) {y : N}
    (h : Underway msg s y) {sent : List (PeerFrame N)} {seen : N → SeenCache cfg} :
    y = f.dst ∨ Underway msg { s with seen := seen, flight := s.flight.eraseIdx i ++ sent } y := by
  obtain ⟨g, hg, hkey, rfl⟩ := h
  obtain ⟨j, hj⟩ := List.mem_iff_getElem?.mp hg
  by_cases hij : j = i
  · subst hij
    rw [hf] at hj
    cases hj
    exact .inl rfl
  · refine .inr ⟨g, List.mem_append_left _ ?_, hkey, rfl⟩
    exact List.mem_eraseIdx_iff_getElem?.mpr ⟨j, hij, hj⟩

omit [DecidableEq N] in
/-- A broker that has handed the publish over is sent it once more. -/
theorem SpreadInv.again (h : SpreadInv net a owner msg s handed) {i : ℕ} {f : PeerFrame N}
    (hf : s.flight[i]? = some f) (hdst : handed f.dst) :
    SpreadInv net a owner msg { s with flight := s.flight.eraseIdx i } handed := by
  have hsub : ∀ g ∈ s.flight.eraseIdx i, g ∈ s.flight := fun g hg ↦ List.mem_of_mem_eraseIdx hg
  have hunderway : ∀ y, handed y ∨ Underway msg s y →
      handed y ∨ Underway msg { s with flight := s.flight.eraseIdx i } y := by
    rintro y (hy | hy)
    · exact .inl hy
    · have hleft : y = f.dst ∨
          Underway msg { s with seen := s.seen, flight := s.flight.eraseIdx i ++ [] } y :=
        hy.deliver hf
      rw [List.append_nil] at hleft
      refine hleft.imp ?_ id
      rintro rfl
      exact hdst
  refine ⟨fun g hg ↦ h.msgs g (hsub g hg), h.seen, fun g hg ↦ h.src g (hsub g hg),
    fun y hy ↦ hunderway y (h.first y hy), fun x hx ↦ ?_, h.lone,
    fun g hg ↦ h.flight_sound g (hsub g hg), h.handed_sound⟩
  obtain ⟨z, hz, hpassed⟩ := h.passed x hx
  exact ⟨z, hz, fun y hy hne ↦ hunderway y (hpassed y hy hne)⟩

omit [DecidableEq N] in
theorem relayed_eq (hq : net.Quiescent) {f : PeerFrame N} (hover : s.HandsOver f)
    (hframe : (buildPublishFrame f.msg).isSome = true) :
    s.relayed net f allOk = (net.sendFromRouter f.dst allOk f.msg.topic
      (some (net.id f.src))).map (⟨f.dst, ·, f.msg⟩) := by
  have hstop : ¬ (¬ s.HandsOver f ∨ (!net.router f.dst) = true) := by
    rw [hq.router f.dst]
    simp [hover]
  have hbuilt : (buildPublishFrame f.msg).isNone = false := by
    rw [Option.isNone_eq_false_iff]
    exact hframe
  rw [ForwardState.relayed, if_neg hstop, hbuilt]
  rfl

/-- A broker hands the publish over and passes it on. -/
theorem SpreadInv.pass (hq : net.Quiescent) (hframe : (buildPublishFrame msg).isSome = true)
    (h : SpreadInv net a owner msg s handed) {i : ℕ} {f : PeerFrame N}
    (hf : s.flight[i]? = some f) (hkey : f.msg.key = msg.key) (hnew : ¬ handed f.dst)
    (hover : s.HandsOver f) :
    SpreadInv net a owner msg { s with
      seen := Function.update s.seen f.dst (seenBefore (s.seen f.dst) f.msg).2
      flight := s.flight.eraseIdx i ++ s.relayed net f allOk }
      fun x ↦ handed x ∨ x = f.dst := by
  have hmem : f ∈ s.flight := List.mem_of_getElem? hf
  obtain rfl := h.msgs f hmem hkey
  have hsent : ∀ g, g ∈ s.relayed net f allOk ↔
      ∃ y ∈ net.hops f.dst f.msg.topic, y ≠ f.src ∧ g = ⟨f.dst, y, f.msg⟩ := by
    intro g
    rw [relayed_eq hq hover hframe, List.mem_map]
    simp only [hq.mem_relayed, and_assoc, eq_comm]
  generalize s.relayed net f allOk = sent at hsent
  set s' : ForwardState cfg N := { s with
    seen := Function.update s.seen f.dst (seenBefore (s.seen f.dst) f.msg).2
    flight := s.flight.eraseIdx i ++ sent } with hs'
  have hflight : ∀ g ∈ s'.flight, g ∈ s.flight ∨
      ∃ y ∈ net.hops f.dst f.msg.topic, y ≠ f.src ∧ g = ⟨f.dst, y, f.msg⟩ := fun g hg ↦
    (List.mem_append.mp hg).imp List.mem_of_mem_eraseIdx (hsent g).mp
  have hunderway : ∀ y, handed y ∨ Underway f.msg s y →
      (handed y ∨ y = f.dst) ∨ Underway f.msg s' y := by
    rintro y (hy | hy)
    · exact .inl (.inl hy)
    · exact (hy.deliver hf).imp .inr id
  have hdst := h.flight_sound f hmem rfl
  have hsrc := h.src f hmem rfl
  refine ⟨fun g hg hgkey ↦ ?_, fun x ↦ ?_, fun g hg hgkey ↦ ?_,
    fun y hy ↦ hunderway y (h.first y hy), fun x hx ↦ ?_, fun o x ho hx ↦ ?_, fun g hg hgkey ↦ ?_,
    fun x hx ↦ ?_⟩
  · rcases hflight g hg with hg | ⟨y, -, -, rfl⟩
    · exact h.msgs g hg hgkey
    · rfl
  · by_cases hx : x = f.dst
    · subst hx
      rw [hs']
      dsimp only
      rw [Function.update_self, seenBefore_eq_visit]
      exact iff_of_true DirectMapped.visit_self (.inr rfl)
    · rw [hs']
      dsimp only
      rw [Function.update_of_ne hx, h.seen]
      exact (or_iff_left hx).symm
  · rcases hflight g hg with hg | ⟨y, -, -, rfl⟩
    · exact (h.src g hg hgkey).imp_right .inl
    · exact .inr (.inr rfl)
  · by_cases hxf : x = f.dst
    · subst hxf
      refine ⟨f.src, hsrc.imp_right .inl, fun y hy hne ↦ .inr ?_⟩
      exact ⟨_, List.mem_append_right _ ((hsent _).mpr ⟨y, hy, hne, rfl⟩), rfl, rfl⟩
    · obtain ⟨z, hz, hpassed⟩ := h.passed x (hx.resolve_right hxf)
      exact ⟨z, hz.imp_right .inl, fun y hy hne ↦ hunderway y (hpassed y hy hne)⟩
  · rcases hsrc with ⟨-, hfirst⟩ | hsrc
    · rw [ho, List.mem_singleton] at hfirst
      exact .inr hfirst.symm
    · exact .inl (h.lone o _ ho hsrc)
  · rcases hflight g hg with hg | ⟨y, hy, hne, rfl⟩
    · exact h.flight_sound g hg hgkey
    · dsimp only
      rcases hdst with hreach | ⟨hself, hall⟩
      · by_cases hback : y = a → f.dst ∉ net.firstOf a f.msg.topic owner
        · exact .inl (hreach.next hy hback)
        · -- back to the publisher, from a broker that it sends to
          simp only [Classical.not_imp, not_not] at hback
          obtain ⟨rfl, hfirst⟩ := hback
          refine .inr ⟨rfl, fun z hz ↦ ?_⟩
          rcases P2pNet.firstOf_cases y f.msg.topic owner with ⟨o, ho⟩ | hrouted
          · exfalso
            rcases hsrc with ⟨hsrc, -⟩ | hsrc
            · exact hne hsrc.symm
            · rw [ho, List.mem_singleton] at hfirst
              exact hnew (hfirst ▸ h.lone o _ ho hsrc)
          · exact .first (hrouted z hz)
      · exact .inl (hall y (hself ▸ hy))
  · rcases hx with hx | rfl
    · exact h.handed_sound x hx
    · exact hdst

omit [DecidableEq N] in
/-- A frame of the publish is new to a broker that has not handed the publish over. -/
theorem SpreadInv.handsOver_iff (h : SpreadInv net a owner msg s handed)
    (hpayload : msg.payload.length ≤ MQTT_PAYLOAD_MAX) {f : PeerFrame N} (hmem : f ∈ s.flight)
    (hkey : f.msg.key = msg.key) : s.HandsOver f ↔ ¬ handed f.dst := by
  have hmsg := h.msgs f hmem hkey
  rw [ForwardState.HandsOver, and_iff_left (hmsg ▸ hpayload), ← h.seen, ForwardState.Unseen,
    seenBefore_eq_visit, Bool.eq_false_iff, Ne, DirectMapped.visit_hit, hkey]

theorem spreadInv_step (hq : net.Quiescent) (hpayload : msg.payload.length ≤ MQTT_PAYLOAD_MAX)
    (hframe : (buildPublishFrame msg).isSome = true) (h : SpreadInv net a owner msg s handed)
    {e : PeerEvent N} (hcalm : Calm net msg.key s handed e) (hstep : forward net s e = some s') :
    SpreadInv net a owner msg s' ((handing net msg.key).note s e handed) := by
  cases e with
  | publish m pub owner' ok =>
      obtain ⟨rfl, hother⟩ := hcalm
      cases hstep
      have hnote : (handing net msg.key).note s (.publish m pub owner' allOk) handed = handed := by
        funext x
        exact propext (or_iff_left id)
      rw [hnote]
      refine h.quiet (fun f hkey ↦ ?_) fun x ↦ Iff.rfl
      rw [List.mem_append, or_iff_left]
      intro hf
      obtain ⟨-, hmsg, -⟩ := mem_published hf
      exact hother (hmsg ▸ hkey)
  | deliver i ok =>
      obtain ⟨rfl, hcalm⟩ := hcalm
      obtain ⟨f, hf, rfl⟩ := deliver_cases hstep
      have hmem : f ∈ s.flight := List.mem_of_getElem? hf
      have hnote : (handing net msg.key).note s (.deliver i allOk) handed = fun x ↦ handed x ∨
          (f.msg.key = msg.key ∧ f.dst = x ∧ s.HandsOver f) := by
        funext x
        simp [handing, HandsKey, hf]
      rw [hnote]
      by_cases hkey : f.msg.key = msg.key
      · have hover := h.handsOver_iff hpayload hmem hkey
        by_cases hnew : handed f.dst
        · have hnot : ¬ s.HandsOver f := fun hf' ↦ hover.mp hf' hnew
          have hrelayed : s.relayed net f allOk = [] := if_pos (.inl hnot)
          have hseen : (seenBefore (s.seen f.dst) f.msg).2 = s.seen f.dst := by
            rw [seenBefore_eq_visit, DirectMapped.visit, hkey, if_pos ((h.seen f.dst).mpr hnew)]
          have hsame : (fun x ↦ handed x ∨ (f.msg.key = msg.key ∧ f.dst = x ∧ s.HandsOver f)) =
              handed := by
            funext x
            exact propext (or_iff_left fun hx ↦ hnot hx.2.2)
          rw [hsame, hrelayed, hseen, Function.update_eq_self, List.append_nil]
          exact h.again hf hnew
        · have hover := hover.mpr hnew
          have hpass := h.pass hq hframe hf hkey hnew hover
          have hsame : (fun x ↦ handed x ∨ (f.msg.key = msg.key ∧ f.dst = x ∧ s.HandsOver f)) =
              fun x ↦ handed x ∨ x = f.dst := by
            funext x
            simp [hkey, hover, eq_comm]
          rwa [hsame]
      · have hsame : (fun x ↦ handed x ∨ (f.msg.key = msg.key ∧ f.dst = x ∧ s.HandsOver f)) =
            handed := by
          funext x
          exact propext (or_iff_left fun hx ↦ hkey hx.1)
        rw [hsame]
        refine h.quiet (fun g hgkey ↦ ?_) fun x ↦ ?_
        · rw [List.mem_append, or_iff_left fun hg ↦ hkey ((mem_relayed hg).2.2.1 ▸ hgkey)]
          refine ⟨List.mem_of_mem_eraseIdx, fun hg ↦ ?_⟩
          obtain ⟨j, hj⟩ := List.mem_iff_getElem?.mp hg
          refine List.mem_eraseIdx_iff_getElem?.mpr ⟨j, ?_, hj⟩
          rintro rfl
          rw [hf] at hj
          cases hj
          exact hkey hgkey
        · dsimp only
          by_cases hx : x = f.dst
          · subst hx
            rw [Function.update_self, seenBefore_eq_visit]
            by_cases hslot : seenIndex cfg msg.key = seenIndex cfg f.msg.key
            · rw [hslot, DirectMapped.visit_self]
              exact iff_of_false hkey (hcalm f hf hkey)
            · rw [DirectMapped.visit_of_ne hslot]
          · rw [Function.update_of_ne hx]

omit [DecidableEq N] in
theorem Accepted.payload {s₀ : ForwardState cfg N} {pub : MqttPublish} (h : Accepted net s₀ a pub) :
    pub.payload.length ≤ MQTT_PAYLOAD_MAX := by
  have hok := h.ok
  simp only [localPublishOk, Bool.and_eq_true, decide_eq_true_eq] at hok
  exact hok.1.2

/-- The invariant holds when the publish has been sent. -/
theorem spreadInv_start {s₀ s₁ : ForwardState cfg N} {pub : MqttPublish}
    (h : Accepted net s₀ a pub)
    (hstep : forward net s₀ (.publish a pub owner allOk) = some s₁) :
    SpreadInv net a owner (net.message a (s₀.localSeq a + 1) pub) s₁ fun _ ↦ False := by
  have hsent : s₀.published net a pub owner allOk = (net.firstOf a pub.topic owner).map
      (⟨a, ·, net.message a (s₀.localSeq a + 1) pub⟩) := by
    have hstop : ¬ ((!localPublishOk pub) = true ∨
        (buildPublishFrame (net.message a (s₀.localSeq a + 1) pub)).isNone = true) := by
      rw [h.ok, Option.isNone_iff_eq_none]
      simpa [Option.isSome_iff_ne_none] using h.frame
    unfold ForwardState.published
    dsimp only
    rw [if_neg hstop]
    rfl
  have htopic : (net.message a (s₀.localSeq a + 1) pub).topic = pub.topic := rfl
  cases hstep
  have hframes : ∀ f ∈ s₀.flight ++ sentBy net s₀ (.publish a pub owner allOk),
      f.msg.key = (net.message a (s₀.localSeq a + 1) pub).key →
      ∃ y ∈ net.firstOf a pub.topic owner, f = ⟨a, y, net.message a (s₀.localSeq a + 1) pub⟩ := by
    intro f hf hkey
    rcases List.mem_append.mp hf with hf | hf
    · exact absurd hkey (h.unsent f hf)
    · rw [sentBy, hsent] at hf
      obtain ⟨y, hy, rfl⟩ := List.mem_map.mp hf
      exact ⟨y, hy, rfl⟩
  refine ⟨fun f hf hkey ↦ ?_, fun x ↦ iff_of_false (h.fresh x) id, fun f hf hkey ↦ ?_,
    fun y hy ↦ .inr ?_, fun x hx ↦ hx.elim, fun o x ho hx ↦ hx.elim, fun f hf hkey ↦ ?_,
    fun x hx ↦ hx.elim⟩
  · obtain ⟨y, -, rfl⟩ := hframes f hf hkey
    rfl
  · obtain ⟨y, hy, rfl⟩ := hframes f hf hkey
    exact .inl ⟨rfl, hy⟩
  · refine ⟨⟨a, y, _⟩, List.mem_append_right _ ?_, rfl, rfl⟩
    rw [sentBy, hsent]
    exact List.mem_map_of_mem hy
  · obtain ⟨y, hy, rfl⟩ := hframes f hf hkey
    exact .inl (.first hy)

/-- When no frame is left, all that can be reached have handed the publish over. -/
theorem SpreadInv.complete (h : SpreadInv net a owner msg s handed)
    (hdone : ∀ f ∈ s.flight, f.msg.key ≠ msg.key) {x : N}
    (hx : net.Reaches a msg.topic owner x) : handed x := by
  have hnone : ∀ y, ¬ Underway msg s y := fun y ⟨f, hf, hkey, _⟩ ↦ hdone f hf hkey
  induction hx with
  | first hy => exact (h.first _ hy).resolve_right (hnone _)
  | @next x y _ hy hback ih =>
      obtain ⟨z, hz, hpassed⟩ := h.passed x ih
      by_cases hyz : y = z
      · subst hyz
        rcases hz with ⟨rfl, hfirst⟩ | hz
        · exact absurd hfirst (hback rfl)
        · exact hz
      · exact (hpassed y hy hyz).resolve_right (hnone y)

/-- From every state the frames of the publish can all be delivered. -/
theorem exists_complete [Fintype N] (hq : net.Quiescent)
    (hpayload : msg.payload.length ≤ MQTT_PAYLOAD_MAX)
    (hframe : (buildPublishFrame msg).isSome = true) {s₁ : ForwardState cfg N}
    (hreach : Reach (handing net msg.key) (Calm net msg.key) s₁ (fun _ ↦ False) s handed)
    (h : SpreadInv net a owner msg s handed) : ∃ s' handed',
      Reach (handing net msg.key) (Calm net msg.key) s₁ (fun _ ↦ False) s' handed' ∧
        ∀ f ∈ s'.flight, f.msg.key ≠ msg.key := by
  classical
  generalize hm : s.flight.length + (cfg.peerMax + 1) * (Finset.univ.filter (¬ handed ·)).card = m
  induction m using Nat.strong_induction_on generalizing s handed with
  | _ m ih =>
      by_cases hdone : ∀ f ∈ s.flight, f.msg.key ≠ msg.key
      · exact ⟨s, handed, hreach, hdone⟩
      · push Not at hdone
        obtain ⟨f, hmem, hkey⟩ := hdone
        obtain ⟨i, hf⟩ := List.mem_iff_getElem?.mp hmem
        have hcalm : Calm net msg.key s handed (.deliver i allOk) := by
          refine ⟨rfl, fun g hg hne ↦ ?_⟩
          rw [hf] at hg
          cases hg
          exact absurd hkey hne
        obtain ⟨s', hstep⟩ : ∃ s', forward net s (.deliver i allOk) = some s' := by
          simp [forward, hf]
        have hnext := spreadInv_step hq hpayload hframe h hcalm hstep
        have hrun := hreach.step hcalm hstep
        refine ih _ ?_ hrun hnext rfl
        have hlen := (List.getElem?_eq_some_iff.mp hf).1
        have hsent : (sentBy net s (.deliver i allOk)).length ≤ cfg.peerMax := sentBy_le _
        have hflight : s'.flight.length =
            s.flight.length - 1 + (sentBy net s (.deliver i allOk)).length := by
          simp only [forward, hf, Option.map_some, Option.some.injEq] at hstep
          rw [← hstep, List.length_append, List.length_eraseIdx_of_lt hlen]
        have hmono : Finset.univ.filter
            (¬ (handing net msg.key).note s (.deliver i allOk) handed ·) ⊆
              Finset.univ.filter (¬ handed ·) := by
          intro x hx
          rw [Finset.mem_filter] at hx ⊢
          exact ⟨hx.1, fun hxh ↦ hx.2 (.inl hxh)⟩
        have hover := h.handsOver_iff hpayload hmem hkey
        by_cases hnew : handed f.dst
        · have hsilent : sentBy net s (.deliver i allOk) = [] := by
            simp only [sentBy, hf]
            exact if_pos (.inl fun hf' ↦ hover.mp hf' hnew)
          rw [hsilent, List.length_nil] at hflight
          have hcard := Nat.mul_le_mul_left (cfg.peerMax + 1) (Finset.card_le_card hmono)
          omega
        · have hcard := Finset.card_lt_card (Finset.ssubset_iff_of_subset hmono |>.mpr
            ⟨f.dst, by simpa using hnew, fun hx ↦ (Finset.mem_filter.mp hx).2
              (.inr ⟨f, hf, hkey, rfl, hover.mpr hnew⟩)⟩)
          have hmul := Nat.mul_le_mul_left (cfg.peerMax + 1) (Nat.succ_le_of_lt hcard)
          rw [Nat.mul_succ] at hmul
          omega

theorem spreadInv_reach (hq : net.Quiescent) {s₀ s₁ : ForwardState cfg N} {pub : MqttPublish}
    (hacc : Accepted net s₀ a pub)
    (hstep : forward net s₀ (.publish a pub owner allOk) = some s₁)
    (hreach : Reach (handing net (net.message a (s₀.localSeq a + 1) pub).key)
      (Calm net (net.message a (s₀.localSeq a + 1) pub).key) s₁ (fun _ ↦ False) s handed) :
    SpreadInv net a owner (net.message a (s₀.localSeq a + 1) pub) s handed :=
  hreach.invariant (spreadInv_start hacc hstep) fun _ hI hcalm hs ↦
    spreadInv_step hq hacc.payload hacc.frame hI hcalm hs

/-- A broker that cannot be reached does not hand the publish over in some order. -/
theorem reaches_of_deliveredToAll [Fintype N] (hq : net.Quiescent) {s₀ : ForwardState cfg N}
    {pub : MqttPublish} (hacc : Accepted net s₀ a pub) {subscribed : N → Prop}
    (h : DeliveredToAll net s₀ a pub owner subscribed) {x : N} (hx : subscribed x) (hne : x ≠ a) :
    net.Reaches a pub.topic owner x := by
  have hstep : forward net s₀ (.publish a pub owner allOk) = some _ := rfl
  obtain ⟨s, handed, hreach, hdone⟩ := exists_complete hq hacc.payload hacc.frame .start
    (spreadInv_reach hq hacc hstep .start)
  have hsound := (spreadInv_reach hq hacc hstep hreach).handed_sound x
    (h _ s handed hstep hreach hdone x hx hne)
  exact hsound.resolve_right fun hself ↦ hne hself.1

/-- In every quiescent network: a publish is handed over by every other broker that has a
subscription, in every order of deliveries, if and only if every such broker can be reached from
those that the publisher sends to. -/
theorem delivered_to_all_iff [Fintype N] (hq : net.Quiescent) {s₀ : ForwardState cfg N}
    {pub : MqttPublish} (hacc : Accepted net s₀ a pub) (owner : NodeId) (subscribed : N → Prop) :
    DeliveredToAll net s₀ a pub owner subscribed ↔
      ∀ x, subscribed x → x ≠ a → net.Reaches a pub.topic owner x := by
  constructor
  · exact fun h x hx hne ↦ reaches_of_deliveredToAll hq hacc h hx hne
  · intro h s₁ s handed hstep hreach hdone x hx hne
    exact (spreadInv_reach hq hacc hstep hreach).complete hdone (h x hx hne)

end

/-! ## A chain whose end owns the shard -/

/-- Every broker can be reached from every other over links. -/
def P2pNet.Connected (net : P2pNet cfg N) : Prop :=
  ∀ x y, Relation.ReflTransGen (fun u v ↦ v ∈ net.peers u) x y

/-- Every broker has, for every other one with a subscription, a route through a neighbour from
which links lead there without coming back. -/
def P2pNet.RoutesComplete (net : P2pNet cfg N) (topic : CStr) (subscribed : N → Prop) : Prop :=
  ∀ y, subscribed y → ∀ x, x ≠ y → ∃ m ∈ net.peers x, ∃ filter,
    (net.routes x).HasRoute (net.id y) (net.id m) filter ∧
      (filter = topic ∨ Router.topicMatch filter topic = true) ∧
      Relation.ReflTransGen (fun u v ↦ v ∈ net.peers u ∧ v ≠ x) m y

namespace SpreadSample

def chainId (n : Fin 3) : NodeId := fun _ ↦ UInt8.ofNat (n.val + 1)

def topic : CStr := [0x61]

/-- Three brokers in a row; the last one has a subscription to `a`. -/
def chain : P2pNet Config.posix (Fin 3) where
  id := chainId
  router _ := true
  routes n := if n = 2 then .init Config.posix
    else ((RouteTable.init Config.posix).remoteSubscribe (chainId 2) topic 0 (chainId (n + 1))).2
  peers n := if n = 1 then [0, 2] else [1]
  peers_le n := by
    fin_cases n <;> decide
  id_ne := by decide

def fresh : ForwardState Config.posix (Fin 3) := ⟨fun _ _ ↦ .zeroed, fun _ ↦ 0, []⟩

def message : MqttPublish := ⟨topic, [0x78], 0, 0, 0, 0⟩

theorem chain_quiescent : chain.Quiescent where
  router _ := rfl
  id_inj := by decide
  hops := by
    have hexact : ∀ n i, ((chain.routes n).exact i).state = .used →
        ∃ m ∈ chain.peers n, chain.id m = ((chain.routes n).exact i).nextHopId := by
      decide +kernel
    have hwildcard : ∀ n i, ((chain.routes n).wildcard i).inUse = true →
        ∃ m ∈ chain.peers n, chain.id m = ((chain.routes n).wildcard i).nextHopId := by
      decide +kernel
    intro n owner hop filter hroute
    cases hroute with
    | exact i h => exact hexact n i h
    | wildcard i h => exact hwildcard n i h

theorem accepted : Accepted chain fresh 1 message where
  ok := by decide
  frame := by decide +kernel
  fresh := by decide +kernel
  unsent := nofun

theorem chain_connected : chain.Connected := by
  have hto : ∀ x, Relation.ReflTransGen (fun u v ↦ v ∈ chain.peers u) x 1 := by
    intro x
    fin_cases x
    · exact .single (by decide)
    · exact .refl
    · exact .single (by decide)
  have hfrom : ∀ y, Relation.ReflTransGen (fun u v ↦ v ∈ chain.peers u) 1 y := by
    intro y
    fin_cases y
    · exact .single (by decide)
    · exact .refl
    · exact .single (by decide)
  exact fun x y ↦ (hto x).trans (hfrom y)

theorem chain_routesComplete : chain.RoutesComplete topic (· = 2) := by
  have hroute : ∀ x : Fin 3, x ≠ 2 →
      (chain.routes x).HasRoute (chain.id 2) (chain.id (x + 1)) topic := by
    intro x hx
    have hslot : ∀ x : Fin 3, x ≠ 2 → ∃ i, ((chain.routes x).exact i).state = .used ∧
        ((chain.routes x).exact i).ownerId = chain.id 2 ∧
        ((chain.routes x).exact i).nextHopId = chain.id (x + 1) ∧
        ((chain.routes x).exact i).filter = topic := by
      decide +kernel
    obtain ⟨i, hused, howner, hhop, hfilter⟩ := hslot x hx
    rw [← howner, ← hhop, ← hfilter]
    exact .exact i hused
  rintro y rfl x hx
  refine ⟨x + 1, ?_, topic, hroute x hx, .inl rfl, ?_⟩
  · revert x
    decide
  · fin_cases x
    · exact .single (by decide)
    · exact .refl
    · exact absurd rfl hx

/-- The first broker is sent the publish, and has nobody to pass it on to. -/
theorem reaches_first_only {x : Fin 3} (h : chain.Reaches 1 topic (chain.id 0) x) : x = 0 := by
  have hfirst : chain.firstOf 1 topic (chain.id 0) = [0] := by decide +kernel
  have hhops : chain.hops 0 topic = [1] := by decide +kernel
  induction h with
  | first hy =>
      rw [hfirst] at hy
      exact List.mem_singleton.mp hy
  | next _ hy hback ih =>
      subst ih
      rw [hhops] at hy
      refine absurd ?_ (hback (List.mem_singleton.mp hy))
      rw [hfirst]
      exact List.mem_singleton_self _

end SpreadSample

open SpreadSample

/-- The broker in the middle owns the shard of its own publish. -/
theorem chain_delivered : DeliveredToAll chain fresh 1 message (chain.id 1) (· = 2) := by
  refine (delivered_to_all_iff chain_quiescent accepted _ _).mpr ?_
  rintro x rfl -
  exact .first (by decide +kernel)

/-- The first broker owns it, and does not send the publish back. -/
theorem chain_not_delivered : chain.Quiescent ∧ chain.Connected ∧
    chain.RoutesComplete topic (· = 2) ∧ Accepted chain fresh 1 message ∧
    ¬ DeliveredToAll chain fresh 1 message (chain.id 0) (· = 2) := by
  refine ⟨chain_quiescent, chain_connected, chain_routesComplete, accepted, fun hall ↦ ?_⟩
  have hreaches := reaches_of_deliveredToAll chain_quiescent accepted hall rfl (by decide)
  exact absurd (reaches_first_only hreaches) (by decide)

end MqttBroker
