import MqttBroker.Mesh.Seeds

/-!
# How many connections a round opens

The connector looks whether an address has a connection, then connects, and only
then enters the connection into the table, with other threads in between.  It is
the only thread that does so, and there is never a second connection of its own to
an address.  A round may open one connection more than the budget leaves.
-/

namespace MqttBroker

open Observer

variable {cfg : Config} {κ : Type} {m : ℕ}

theorem peerMaxDegree_mem (build : ConnectorBuild) {n : ℕ} (h : 1 < n) :
    1 ≤ peerMaxDegree cfg build n ∧ peerMaxDegree cfg build n ≤ cfg.peerMax := by
  have hmax := cfg.peerMax_pos
  unfold peerMaxDegree
  dsimp only
  split_ifs <;> omega

variable (cfg) in
/-- There is something to connect to, and never more than the table holds. -/
theorem peerBudget_mem (build : ConnectorBuild) (stats : P2pRouterStats) (rate n : ℕ) :
    1 ≤ peerBudget cfg build stats rate n ∧ peerBudget cfg build stats rate n ≤ cfg.peerMax := by
  unfold peerBudget
  by_cases hone : n ≤ 1
  · rw [if_pos hone]
    exact ⟨le_rfl, cfg.peerMax_pos⟩
  · have hdegree : 1 ≤ peerMaxDegree cfg build n ∧ peerMaxDegree cfg build n ≤ cfg.peerMax :=
      peerMaxDegree_mem build (not_le.mp hone)
    rw [if_neg hone]
    dsimp only
    split_ifs
    · exact hdegree
    · exact hdegree
    all_goals
      obtain ⟨hpos, hle⟩ := bestCandidate_mem _ hdegree.1
      exact ⟨hpos, hle.trans hdegree.2⟩

/-! ## The table of connections -/

section

variable [DecidableEq κ] {s s' : PeerState cfg κ} {e : PeerStep κ}

/-- The thread of a connection takes no slot, and turns no connection around. -/
theorem peerStep_conns (h : peerStep s e = some s') (halloc : ∀ k outbound, e ≠ .alloc k outbound)
    {i : Fin cfg.peerMax} (huse : (s'.conns i).inUse = true) :
    (s.conns i).inUse = true ∧ (s'.conns i).outbound = (s.conns i).outbound := by
  have hset : ∀ {j : Fin cfg.peerMax} {c : PeerConn κ},
      c.inUse = false ∨ c.inUse = (s.conns j).inUse ∧ c.outbound = (s.conns j).outbound →
      ((s.setConn j c).conns i).inUse = true → (s.conns i).inUse = true ∧
        ((s.setConn j c).conns i).outbound = (s.conns i).outbound := by
    intro j c hc huse
    by_cases hij : i = j
    · subst hij
      simp only [PeerState.setConn, Function.update_self] at huse ⊢
      rcases hc with hc | ⟨hc, hout⟩
      · rw [hc] at huse
        cases huse
      · exact ⟨hc ▸ huse, hout⟩
    · simp only [PeerState.setConn, Function.update_of_ne hij] at huse ⊢
      exact ⟨huse, trivial⟩
  have hthread : (s.threads e.thread).bind (fun t ↦ s.threadStep e.thread t e) = some s' →
      (s.conns i).inUse = true ∧ (s'.conns i).outbound = (s.conns i).outbound := by
    intro hstep
    obtain ⟨t, -, hstep⟩ := Option.bind_eq_some_iff.mp hstep
    unfold PeerState.threadStep at hstep
    split at hstep
    case h_4 =>
      cases hstep
      simp only [PeerState.goto] at huse ⊢
      split_ifs at huse ⊢
      · cases huse
      · exact ⟨huse, rfl⟩
    case h_5 =>
      cases hstep
      exact hset (.inr ⟨rfl, rfl⟩) huse
    case h_12 =>
      cases hstep
      exact hset (.inl rfl) huse
    all_goals (try split_ifs at hstep) <;> cases hstep <;> exact ⟨huse, rfl⟩
  cases e with
  | alloc k outbound => exact absurd rfl (halloc k outbound)
  | _ => exact hthread h

end

/-! ## The connector's own connections -/

namespace ConnectorState

/-- No connection that was opened to this address is in use. -/
def NoneTo (s : ConnectorState cfg κ m) (a : PeerAddr) : Prop :=
  ∀ i, (s.peers.conns i).inUse = true → (s.peers.conns i).outbound = true → s.addrs i ≠ a

/-- The connections that were opened and are in use have different addresses. -/
def OutboundApart (s : ConnectorState cfg κ m) : Prop :=
  ∀ i j, (s.peers.conns i).inUse = true → (s.peers.conns j).inUse = true →
    (s.peers.conns i).outbound = true → (s.peers.conns j).outbound = true →
      s.addrs i = s.addrs j → i = j

variable {s s' : ConnectorState cfg κ m} {a : PeerAddr}

theorem noneTo_of_addrConnExists (h : s.addrConnExists a = false) : s.NoneTo a := by
  intro i huse _ haddr
  have hall := List.any_eq_false.mp h i (List.mem_finRange i)
  simp [huse, haddr] at hall

/-- `s'` has no connection that `s` does not have. -/
structure Fewer (s s' : ConnectorState cfg κ m) : Prop where
  kept : ∀ i, (s'.peers.conns i).inUse = true → (s'.peers.conns i).outbound = true →
    (s.peers.conns i).inUse = true ∧ (s.peers.conns i).outbound = true ∧ s'.addrs i = s.addrs i

theorem Fewer.noneTo (h : Fewer s s') (hnone : s.NoneTo a) : s'.NoneTo a := by
  intro i huse hout haddr
  obtain ⟨huse, hout, hsame⟩ := h.kept i huse hout
  exact hnone i huse hout (hsame.symm.trans haddr)

theorem Fewer.apart (h : Fewer s s') (hapart : s.OutboundApart) : s'.OutboundApart := by
  intro i j hi hj houti houtj haddr
  obtain ⟨hi, houti, hsamei⟩ := h.kept i hi houti
  obtain ⟨hj, houtj, hsamej⟩ := h.kept j hj houtj
  exact hapart i j hi hj houti houtj (by rw [← hsamei, ← hsamej, haddr])

variable [DecidableEq κ]

/-- A new connection is the only change in the table. -/
theorem allocConn_conns {k : κ} {outbound : Bool} (h : s.allocConn k a outbound = some s') :
    ∃ i, (s.peers.conns i).inUse = false ∧ (s'.peers.conns i).outbound = outbound ∧
      s'.addrs i = a ∧ ∀ j, j ≠ i → s'.peers.conns j = s.peers.conns j ∧ s'.addrs j = s.addrs j := by
  obtain ⟨i, peers, hfree, hpeers, rfl⟩ := allocConn_eq h
  have hunused : (s.peers.conns i).inUse = false := by simpa using List.find?_some hfree
  simp only [peerStep] at hpeers
  split_ifs at hpeers
  rw [hfree] at hpeers
  cases hpeers
  refine ⟨i, hunused, ?_, Function.update_self _ _ _, fun j hj ↦ ⟨?_, Function.update_of_ne hj _ _⟩⟩
  · simp [PeerState.goto, PeerState.setConn]
  · simp [PeerState.goto, PeerState.setConn, hj]

/-- Taking a connection opens none. -/
theorem fewer_of_accept {k : κ} (h : s.allocConn k a false = some s') : Fewer s s' := by
  obtain ⟨i, -, hout, -, hother⟩ := allocConn_conns h
  refine ⟨fun j huse houtj ↦ ?_⟩
  have hji : j ≠ i := by
    rintro rfl
    rw [hout] at houtj
    cases houtj
  obtain ⟨hconn, haddr⟩ := hother j hji
  rw [hconn] at huse houtj
  exact ⟨huse, houtj, haddr⟩

theorem apart_of_open {k : κ} (hapart : s.OutboundApart) (hnone : s.NoneTo a)
    (h : s.allocConn k a true = some s') : s'.OutboundApart := by
  obtain ⟨i, -, -, haddr, hother⟩ := allocConn_conns h
  have hold : ∀ j, j ≠ i → (s'.peers.conns j).inUse = true →
      (s'.peers.conns j).outbound = true → s'.addrs j ≠ a := by
    intro j hji huse hout
    obtain ⟨hconn, hsame⟩ := hother j hji
    rw [hconn] at huse hout
    rw [hsame]
    exact hnone j huse hout
  intro j j' hj hj' hout hout' heq
  by_cases hji : j = i <;> by_cases hji' : j' = i
  · exact hji.trans hji'.symm
  · subst hji
    exact absurd (heq.symm.trans haddr) (hold j' hji' hj' hout')
  · subst hji'
    exact absurd (heq.trans haddr) (hold j hji hj hout)
  · obtain ⟨hconn, hsame⟩ := hother j hji
    obtain ⟨hconn', hsame'⟩ := hother j' hji'
    rw [hconn] at hj hout
    rw [hconn'] at hj' hout'
    exact hapart j j' hj hj' hout hout' (by rw [← hsame, ← hsame', heq])

end ConnectorState

/-! ## The budget of a round -/

/-- How many connections the round has opened, at each place. -/
def ConnectorPc.Counts (build : ConnectorBuild) (budget connected counted : ℤ) (opened : ℕ) :
    ConnectorPc → Prop
  | .sleeping => build.staticSeedsOnly = false → opened ≤ max (budget - counted) 0 + 1
  | .dial _ (.candidate _) | .connecting _ (.candidate _) =>
      opened = connected - counted ∧ connected < budget
  | .mark _ _ _ result => opened = connected - counted + (result.getD false).toNat ∧
      (build.staticSeedsOnly = false → connected ≤ max budget counted)
  | _ => opened = connected - counted ∧
      (build.staticSeedsOnly = false → connected ≤ max budget counted)

namespace ConnectorState

variable {build : ConnectorBuild} {s s' : ConnectorState cfg κ m} {e : ConnectorEvent κ}
  {n : ConnectorLog}

structure Sound (build : ConnectorBuild) (s : ConnectorState cfg κ m) (n : ConnectorLog) :
    Prop where
  apart : s.OutboundApart
  noneTo : ∀ a caller, s.pc = .connecting a caller → s.NoneTo a
  counts : s.pc.Counts build s.budget s.connected n.counted n.opened
  budget : s.pc ≠ .sleeping → 1 ≤ s.budget ∧ s.budget ≤ cfg.peerMax

/-- Another thread has taken or closed a connection. -/
theorem Sound.fewer (h : s.Sound build n) (hfewer : Fewer s s') (hpc : s'.pc = s.pc)
    (hbudget : s'.budget = s.budget) (hconnected : s'.connected = s.connected) :
    s'.Sound build n := by
  refine ⟨hfewer.apart h.apart, fun a caller ha ↦ hfewer.noneTo (h.noneTo a caller (hpc ▸ ha)), ?_,
    fun hawake ↦ ?_⟩
  · rw [hpc, hbudget, hconnected]
    exact h.counts
  · rw [hbudget]
    exact h.budget (hpc ▸ hawake)

/-- `connect_to_addr` returns, after it has opened a connection or has not. -/
theorem returned_sound {a : PeerAddr} {caller : DialCaller} {ok : Bool} {n' : ConnectorLog}
    (hs : s.Sound build n) (hpc : s.pc = .dial a caller ∨ s.pc = .connecting a caller)
    (hpeers : s'.OutboundApart) (hbudget : s'.budget = s.budget)
    (hconnected : s'.connected = s.connected) (hcounted : n'.counted = n.counted)
    (hopened : n'.opened = n.opened + ok.toNat) : (s'.returned caller ok).Sound build n' := by
  have hrange := hs.budget (by rcases hpc with hpc | hpc <;> simp [hpc])
  have hcounts := hs.counts
  cases caller with
  | candidate rest =>
      have hold : (n.opened : ℤ) = s.connected - n.counted ∧ s.connected < s.budget := by
        rcases hpc with hpc | hpc <;> rw [hpc] at hcounts <;> exact hcounts
      refine ⟨hpeers, fun _ _ h ↦ (by cases h), ?_, fun _ ↦ hbudget ▸ hrange⟩
      simp only [returned, ConnectorPc.Counts, hbudget, hconnected, hcounted, hopened]
      push_cast
      cases ok <;> simp <;> omega
  | seed now seed rest =>
      have hold : (n.opened : ℤ) = s.connected - n.counted ∧
          (build.staticSeedsOnly = false → s.connected ≤ max s.budget n.counted) := by
        rcases hpc with hpc | hpc <;> rw [hpc] at hcounts <;> exact hcounts
      refine ⟨hpeers, fun _ _ h ↦ (by cases h), ?_, fun _ ↦ hbudget ▸ hrange⟩
      simp only [returned, ConnectorPc.Counts, hbudget, hconnected, hcounted, hopened,
        Option.getD_some]
      push_cast
      exact ⟨by rw [hold.1], hold.2⟩

variable [DecidableEq κ]

theorem roundStep_sound {k : Option κ} (hs : s.Sound build n) (h : RoundStep build s k s') :
    s'.Sound build (ConnectorLog.note s (.connector k) n) := by
  have hcounts := hs.counts
  -- elsewhere than in `plat_connect` nothing is counted
  have hcount : (∀ a caller, s.pc ≠ .connecting a caller) →
      (ConnectorLog.note s (.connector k) n).counted = n.counted ∧
        (ConnectorLog.note s (.connector k) n).opened = n.opened := by
    intro hne
    cases hpc : s.pc with
    | connecting a caller => exact absurd hpc (hne a caller)
    | mark now seed rest result =>
        cases k <;> simp only [ConnectorLog.note, hpc] <;> split_ifs <;> exact ⟨rfl, rfl⟩
    | _ => cases k <;> simp [ConnectorLog.note, hpc]
  have hgo : ∀ {pc : ConnectorPc}, (∀ a caller, s.pc ≠ .connecting a caller) →
      s.pc ≠ .sleeping → (∀ a caller, pc = .connecting a caller → s.NoneTo a) →
      pc.Counts build s.budget s.connected n.counted n.opened →
        ConnectorState.Sound build { s with pc := pc } (ConnectorLog.note s (.connector k) n) := by
    intro pc hne hawake hnone hpc
    obtain ⟨hcounted, hopened⟩ := hcount hne
    refine ⟨hs.apart, hnone, ?_, fun _ ↦ hs.budget hawake⟩
    rw [hcounted, hopened]
    exact hpc
  cases h with
  | leaveCandidates rest hpc =>
      rw [hpc] at hcounts
      exact hgo (by simp [hpc]) (by simp [hpc]) (by simp) hcounts
  | skipCandidate p ps hpc =>
      rw [hpc] at hcounts
      exact hgo (by simp [hpc]) (by simp [hpc]) (by simp) hcounts
  | tryCandidate p ps hpc hlt =>
      rw [hpc] at hcounts
      exact hgo (by simp [hpc]) (by simp [hpc]) (by simp) ⟨hcounts.1, hlt⟩
  | copy hpc =>
      rw [hpc] at hcounts
      exact hgo (by simp [hpc]) (by simp [hpc]) (by simp) hcounts
  | leaveSeeds now hpc =>
      rw [hpc] at hcounts
      refine hgo (by simp [hpc]) (by simp [hpc]) (by simp) fun hdynamic ↦ ?_
      have hle := hcounts.2 hdynamic
      have hopened := hcounts.1
      omega
  | seedLinked now seed rest hpc =>
      rw [hpc] at hcounts
      refine hgo (by simp [hpc]) (by simp [hpc]) (by simp) ⟨?_, hcounts.2⟩
      simpa using hcounts.1
  | seedEarly now seed rest hpc =>
      rw [hpc] at hcounts
      exact hgo (by simp [hpc]) (by simp [hpc]) (by simp) hcounts
  | seedDue now seed rest hpc hdue =>
      rw [hpc] at hcounts
      exact hgo (by simp [hpc]) (by simp [hpc]) (by simp) hcounts
  | linked a caller hpc =>
      obtain ⟨hcounted, hopened⟩ := hcount (by simp [hpc])
      exact returned_sound hs (.inl hpc) hs.apart rfl rfl hcounted hopened
  | dial a caller hpc hfree =>
      rw [hpc] at hcounts
      refine hgo (by simp [hpc]) (by simp [hpc]) ?_ (by cases caller <;> exact hcounts)
      intro a' caller' heq
      cases heq
      exact noneTo_of_addrConnExists hfree
  | failed a caller hpc hnone =>
      have hnote : (ConnectorLog.note s (.connector k) n).counted = n.counted ∧
          (ConnectorLog.note s (.connector k) n).opened = n.opened := by
        cases k with
        | none => simp [ConnectorLog.note, hpc]
        | some k => simp [ConnectorLog.note, hpc, hnone k rfl]
      exact returned_sound hs (.inr hpc) hs.apart rfl rfl hnote.1 hnote.2
  | opened a caller k' s' hpc hk halloc =>
      have hnote : (ConnectorLog.note s (.connector k) n).counted = n.counted ∧
          (ConnectorLog.note s (.connector k) n).opened = n.opened + true.toNat := by
        rw [hk]
        simp [ConnectorLog.note, hpc, halloc]
      have hapart := apart_of_open hs.apart (hs.noneTo a caller hpc) halloc
      obtain ⟨i, peers, -, -, rfl⟩ := allocConn_eq halloc
      exact returned_sound hs (.inr hpc) hapart rfl rfl hnote.1 hnote.2
  | mark now seed rest result connected done hpc hconnected hdone =>
      obtain ⟨hcounted, hopened⟩ := hcount (by simp [hpc])
      rw [hpc] at hcounts
      obtain ⟨hcount, hle⟩ := hcounts
      have hrange := hs.budget (by simp [hpc])
      have hresult : (result.getD false).toNat ≤ 1 := Bool.toNat_le _
      refine ⟨hs.apart, ?_, ?_, fun _ ↦ hrange⟩
      · intro a caller hconnecting
        dsimp only at hconnecting
        split_ifs at hconnecting
      · simp only [hcounted, hopened]
        cases done with
        | true =>
            intro hdynamic
            have := hle hdynamic
            omega
        | false =>
            refine ⟨by omega, fun hdynamic ↦ ?_⟩
            have hmax := hle hdynamic
            cases result with
            | none => simpa [hconnected] using hmax
            | some ok =>
                -- the loop goes on, so the budget is not used up
                simp only [hdynamic, Option.isSome_some, Bool.not_false, Bool.and_self,
                  Bool.true_and] at hdone
                have hlt := of_decide_eq_false hdone.symm
                omega

theorem step_sound (hs : s.Sound build n) (h : s.step build e = some s') :
    s'.Sound build (ConnectorLog.note s e n) := by
  cases e with
  | tick ms | clearSeeds | addSeed a =>
      cases h
      exact ⟨hs.apart, hs.noneTo, hs.counts, hs.budget⟩
  | peer e =>
      have hfewer : ∀ {peers : PeerState cfg κ}, (∀ k outbound, e ≠ .alloc k outbound) →
          peerStep s.peers e = some peers → Fewer s { s with
            peers := peers
            addrs := fun i ↦ if (peers.conns i).inUse then s.addrs i else (0, 0) } := by
        intro peers halloc hpeers
        refine ⟨fun i huse hout ↦ ?_⟩
        obtain ⟨hold, hsame⟩ := peerStep_conns hpeers halloc huse
        exact ⟨hold, hsame ▸ hout, if_pos huse⟩
      cases e with
      | alloc k outbound => cases h
      | _ =>
          obtain ⟨peers, hpeers, rfl⟩ := Option.map_eq_some_iff.mp h
          exact hs.fewer (hfewer (by simp) hpeers) rfl rfl rfl
  | accept k addr =>
      have hfewer := fewer_of_accept h
      obtain ⟨i, peers, -, -, rfl⟩ := allocConn_eq h
      exact hs.fewer hfewer rfl rfl rfl
  | round snapshot stats publishRate =>
      have hbudget := peerBudget_mem cfg build stats publishRate snapshot.length
      simp only [step] at h
      split at h <;> cases h
      have hpos : (0 : ℤ) < peerBudget cfg build stats publishRate snapshot.length := by omega
      refine ⟨hs.apart, ?_, ?_, fun _ ↦ ⟨by dsimp only; omega, by dsimp only; omega⟩⟩
      · intro a caller hpc
        dsimp only at hpc
        split_ifs at hpc
      · dsimp only [ConnectorLog.note]
        rw [if_pos hpos]
        split_ifs <;> exact ⟨by simp, fun _ ↦ le_max_right _ _⟩
  | connector k => exact roundStep_sound hs (connectorStep_cases h)

/-- What the connector keeps to when it opens connections. -/
structure Dials (build : ConnectorBuild) (s : ConnectorState cfg κ m) (n : ConnectorLog) :
    Prop where
  /-- one connection to an address -/
  apart : s.OutboundApart
  /-- `plat_connect` is not called for an address with a connection -/
  dialling : ∀ a caller, s.pc = .connecting a caller → s.NoneTo a
  /-- a round that counted `counted` peers opens one connection more than the budget leaves -/
  opened : build.staticSeedsOnly = false → n.opened ≤ max (s.budget - n.counted) 0 + 1
  budget : s.pc ≠ .sleeping → 1 ≤ s.budget ∧ s.budget ≤ cfg.peerMax

/-- However the other threads take and close connections. -/
theorem connector_dials {selfId : NodeId} {clock : ℤ}
    (h : Reach (connectorSystem κ cfg m build) (fun _ _ _ ↦ True) (.start cfg κ m selfId clock)
      .none s n) : s.Dials build n := by
  have hstart : (start cfg κ m selfId clock).Sound build .none := by
    refine ⟨?_, ?_, ?_, fun hawake ↦ absurd rfl hawake⟩
    · intro i j hi
      cases hi
    · intro a caller hpc
      cases hpc
    · intro _
      simp [ConnectorLog.none, start]
  have hs : s.Sound build n := by
    refine h.invariant (I := fun s n ↦ s.Sound build n) hstart ?_
    intro s n e s' _ hs _ hstep
    exact step_sound hs hstep
  refine ⟨hs.apart, hs.noneTo, fun hdynamic ↦ ?_, hs.budget⟩
  have hcounts := hs.counts
  cases hpc : s.pc with
  | sleeping =>
      rw [hpc] at hcounts
      exact hcounts hdynamic
  | candidates rest | copying | seeds now rest =>
      rw [hpc] at hcounts
      have hle := hcounts.2 hdynamic
      have hopened := hcounts.1
      omega
  | dial a caller | connecting a caller =>
      rw [hpc] at hcounts
      cases caller with
      | candidate rest =>
          obtain ⟨hopened, hlt⟩ := hcounts
          omega
      | seed now seed rest =>
          have hle := hcounts.2 hdynamic
          have hopened := hcounts.1
          omega
  | mark now seed rest result =>
      rw [hpc] at hcounts
      have hresult : (result.getD false).toNat ≤ 1 := Bool.toNat_le _
      have hle := hcounts.2 hdynamic
      have hopened := hcounts.1
      omega

/-- A peer has connected, which is all the budget allows, and a seed is dialled as well. -/
def overBudget : List (ConnectorEvent (Fin 2)) :=
  [.addSeed (7, 4884), .accept 0 9, .peer (.hello 0 (some highId)), .peer (.check 0),
    .peer (.install 0), .round [] ⟨0, 0, 0, 0⟩ 0] ++ List.replicate 3 (.connector none) ++
    [.connector (some 1), .connector none]

theorem connector_dials_overBudget :
    (Observer.run (connectorSystem (Fin 2) Config.posix 2 ⟨false, 0⟩)
      (.start Config.posix (Fin 2) 2 lowId 0, .none) overBudget).map
        (fun r ↦ (r.1.budget, r.2.counted, r.2.opened)) = some (1, 1, 1) ∧
      ∀ r ∈ Observer.run (connectorSystem (Fin 2) Config.posix 2 ⟨false, 0⟩)
        (.start Config.posix (Fin 2) 2 lowId 0, .none) overBudget,
          r.1.Dials ⟨false, 0⟩ r.2 := by
  refine ⟨by decide +kernel, fun r hr ↦ ?_⟩
  exact connector_dials (Reach.start.run (fun _ _ _ _ ↦ trivial) hr)

end ConnectorState

end MqttBroker
