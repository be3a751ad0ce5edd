import MqttBroker.Mesh.PeerThreads

/-!
# A connection that takes the place of another

`close_conn` looks for another connection to the node and removes the routes of
the node in two steps.  What is heard over a connection that came up in between
goes with them.
-/

namespace MqttBroker

open Observer

variable {cfg : Config} {κ : Type}

/-- A subscription that was heard over a connection to a node, and whether there
was room for its route. -/
structure Heard (κ : Type) where
  conn : κ
  node : NodeId
  owner : NodeId
  filter : CStr
  routed : Bool
  deriving DecidableEq

/-- What was heard is in the route table. -/
def Heard.Present (e : Heard κ) (r : RouteTable cfg) : Prop :=
  r.Holds e.owner e.filter ∧ (e.routed = true → r.Routed e.owner e.filter)

instance (e : Heard κ) (r : RouteTable cfg) : Decidable (e.Present r) :=
  inferInstanceAs (Decidable (_ ∧ (_ → _)))

namespace PeerState

variable (s : PeerState cfg κ)

/-- Connection `x` is a link to a node. -/
def Linked (x : κ) (id : NodeId) : Prop :=
  ∃ i, (s.conns i).fd = some x ∧ (s.conns i).inUse = true ∧ (s.conns i).connected = true ∧
    (s.conns i).nodeId = id

instance [DecidableEq κ] (x : κ) (id : NodeId) : Decidable (s.Linked x id) :=
  inferInstanceAs (Decidable (∃ _, _ ∧ _ ∧ _ ∧ _))

/-- A thread is about to remove a node. -/
def Removing (id : NodeId) : Prop :=
  ∃ k, ((s.threads k).any fun t ↦ t.phase = .removing id) = true

instance [Fintype κ] (id : NodeId) : Decidable (s.Removing id) :=
  inferInstanceAs (Decidable (∃ _, _))

variable [DecidableEq κ]

/-- What was heard, after a step.  It leaves the notes when it is withdrawn, when
a new handshake is made over its connection, and when another node is removed
and takes it along. -/
def hear (e : PeerStep κ) (heard : List (Heard κ)) : List (Heard κ) :=
  match e, s.threads e.thread with
  | .subscribe _ owner filter qos, some t =>
      let node := (s.conns t.slot).nodeId
      let r := (s.routes.remoteSubscribe owner filter qos node).2
      (s.conns t.slot).fd.elim heard fun x ↦
        if r.Holds owner filter then ⟨x, node, owner, filter, r.Routed owner filter⟩ :: heard
        else heard
  | .unsubscribe _ owner filter, _ => heard.filter fun e ↦ ¬ (e.owner = owner ∧ e.filter = filter)
  | .install _, some t => heard.filter fun e ↦ (s.conns t.slot).fd ≠ some e.conn
  | .remove _, some ⟨_, .removing id⟩ => heard.filter fun e ↦
      e.Present (s.routes.removeNode id) ∨ e.node = id ∧ s.Linked e.conn id
  | _, _ => heard

end PeerState

/-- The program and what was heard. -/
def relink (cfg : Config) (κ : Type) [DecidableEq κ] :
    System (PeerState cfg κ) (PeerStep κ) (List (Heard κ)) where
  step := peerStep
  note s := s.hear

/-- No SUB_NOTIFY is handled over a connection to a node that a thread is about
to remove. -/
def NotRemoving (s : PeerState cfg κ) (_ : List (Heard κ)) : PeerStep κ → Prop
  | .subscribe k _ _ _ => ∀ t, s.threads k = some t → ¬ s.Removing (s.conns t.slot).nodeId
  | _ => True

/-- What was heard is in the table, and over a link no thread will remove it. -/
def HeardKept (s : PeerState cfg κ) (heard : List (Heard κ)) : Prop :=
  ∀ e ∈ heard, e.Present s.routes ∧ (s.Linked e.conn e.node → ¬ s.Removing e.node)

/-! ## Links and removals in a step -/

namespace PeerState

variable {s s' : PeerState cfg κ} {k x : κ} {t : PeerThread cfg} {phase : PeerPhase} {id : NodeId}
  {i : Fin cfg.peerMax} {c : PeerConn κ}

theorem linkedTo_of_linked (h : s.Linked x id) : s.LinkedTo id none := by
  obtain ⟨i, -, huse, hconn, hid⟩ := h
  exact ⟨i, Option.some_ne_none i, huse, hconn, hid⟩

/-- A new value of a slot makes one link at most. -/
theorem linked_setConn (h : (s.setConn i c).Linked x id) :
    s.Linked x id ∨ c.fd = some x ∧ c.connected = true ∧ c.nodeId = id := by
  obtain ⟨j, hfd, huse, hconn, hid⟩ := h
  by_cases hj : j = i
  · subst hj
    simp only [setConn, Function.update_self] at hfd hconn hid
    exact .inr ⟨hfd, hconn, hid⟩
  · simp only [setConn, Function.update_of_ne hj] at hfd huse hconn hid
    exact .inl ⟨j, hfd, huse, hconn, hid⟩

variable [DecidableEq κ]

theorem removing_goto (h : (s.goto k t phase).Removing id) :
    phase = .removing id ∨ s.Removing id := by
  obtain ⟨k', hk'⟩ := h
  by_cases hk : k' = k
  · subst hk
    left
    simpa [goto] using hk'
  · exact .inr ⟨k', by simpa [goto, hk] using hk'⟩

end PeerState

namespace HeardKept

variable {s s' : PeerState cfg κ} {heard : List (Heard κ)}

/-- A step that leaves the table alone and makes no link and no removal. -/
theorem frame (h : HeardKept s heard) (hroutes : s'.routes = s.routes)
    (hlinked : ∀ x id, s'.Linked x id → s.Linked x id)
    (hremoving : ∀ id, s'.Removing id → s.Removing id) : HeardKept s' heard := by
  intro e he
  obtain ⟨hpresent, hsafe⟩ := h e he
  refine ⟨by rwa [hroutes], fun hlink hrem ↦ ?_⟩
  exact hsafe (hlinked _ _ hlink) (hremoving _ hrem)

theorem mono {heard' : List (Heard κ)} (h : HeardKept s heard) (hsub : ∀ e ∈ heard', e ∈ heard) :
    HeardKept s heard' := fun e he ↦ h e (hsub e he)

end HeardKept

section

variable [DecidableEq κ] {s s' : PeerState cfg κ} {e : PeerStep κ} {heard : List (Heard κ)}

theorem heardKept_threadStep {t : PeerThread cfg} (h : HeardKept s heard)
    (hallowed : NotRemoving s heard e) (ht : s.threads e.thread = some t)
    (hstep : s.threadStep e.thread t e = some s') : HeardKept s' (s.hear e heard) := by
  have hgoto : ∀ {s₀ : PeerState cfg κ} {phase heard'}, HeardKept s₀ heard' →
      (∀ id, phase ≠ .removing id) → HeardKept (s₀.goto e.thread t phase) heard' :=
    fun h₀ hphase ↦ h₀.frame rfl (fun _ _ hl ↦ hl)
      fun id hr ↦ (PeerState.removing_goto hr).resolve_left (hphase id)
  unfold PeerState.threadStep at hstep
  split at hstep
  · cases hstep; exact hgoto h (by simp)
  · cases hstep; exact hgoto h (by simp)
  · split_ifs at hstep <;> cases hstep <;> exact hgoto h (by simp)
  · next k ann hphase =>
      cases hstep
      refine hgoto (h.frame rfl (fun x id hl ↦ ?_) fun _ hr ↦ hr) (by simp)
      obtain ⟨i, hfd, huse, hconn, hid⟩ := hl
      dsimp only at hfd huse hconn hid
      split_ifs at hfd huse hconn hid with hdup
      · cases hfd
      · exact ⟨i, hfd, huse, hconn, hid⟩
  · next k ann hphase =>
      cases hstep
      refine hgoto ?_ (by simp)
      -- what was heard over this connection before has left the notes
      intro r hr
      simp only [PeerState.hear, ht, List.mem_filter, decide_eq_true_eq] at hr
      obtain ⟨hpresent, hsafe⟩ := h r hr.1
      refine ⟨hpresent, fun hl ↦ hsafe ?_⟩
      exact (PeerState.linked_setConn hl).resolve_right fun hc ↦ hr.2 hc.1
  · cases hstep
    exact hgoto (h.frame rfl (fun _ _ hl ↦ hl) fun _ hr ↦ hr) (by simp)
  · next k owner filter qos hphase =>
      split_ifs at hstep with hlen
      cases hstep
      have hold : ∀ r ∈ heard, r.Present
          (s.routes.remoteSubscribe owner filter qos (s.conns t.slot).nodeId).2 ∧
            (s.Linked r.conn r.node → ¬ s.Removing r.node) := fun r hr ↦
        ⟨⟨RouteTable.remoteSubscribe_holds hlen (h r hr).1.1,
          fun hrouted ↦ RouteTable.remoteSubscribe_routed ((h r hr).1.2 hrouted)⟩, (h r hr).2⟩
      intro r hr
      simp only [PeerState.hear, ht] at hr
      cases hfd : (s.conns t.slot).fd with
      | none =>
          rw [hfd] at hr
          exact hold r hr
      | some x =>
          rw [hfd, Option.elim_some] at hr
          split_ifs at hr with hholds
          · rcases List.mem_cons.mp hr with rfl | hr
            · exact ⟨⟨hholds, of_decide_eq_true⟩, fun _ ↦ hallowed t ht⟩
            · exact hold r hr
          · exact hold r hr
  · next k owner filter hphase =>
      cases hstep
      intro r hr
      simp only [PeerState.hear, List.mem_filter, decide_eq_true_eq] at hr
      obtain ⟨hpresent, hsafe⟩ := h r hr.1
      have hother : r.owner ≠ owner ∨ r.filter ≠ filter := not_and_or.mp hr.2
      exact ⟨⟨RouteTable.remoteUnsubscribe_holds hpresent.1 hother,
        fun hrouted ↦ RouteTable.remoteUnsubscribe_routed (hpresent.2 hrouted) hother⟩, hsafe⟩
  · cases hstep
    exact h
  · cases hstep
    exact h.frame rfl (fun _ _ hl ↦ hl) fun _ hr ↦ hr
  · cases hstep; exact hgoto h (by simp)
  · cases hstep
    refine hgoto (h.frame rfl (fun x id hl ↦ ?_) fun _ hr ↦ hr) (by simp)
    exact (PeerState.linked_setConn hl).resolve_right fun hc ↦ by cases hc.1
  · next k had hphase =>
      cases hstep
      refine hgoto (h.frame rfl (fun _ _ hl ↦ hl) fun _ hr ↦ hr) ?_
      cases had <;> simp
  · next k id hphase =>
      cases hstep
      split_ifs with hlinked
      · exact hgoto h (by simp)
      · -- a removal starts only when there is no link to the node
        intro r hr
        refine ⟨(h r hr).1, fun hl hrem ↦ ?_⟩
        rcases PeerState.removing_goto hrem with hid | hrem
        · cases hid
          exact hlinked (PeerState.linkedTo_of_linked hl)
        · exact (h r hr).2 hl hrem
  · next k id hphase =>
      cases hstep
      refine hgoto ?_ (by simp)
      intro r hr
      have ht' : s.threads k = some ⟨t.slot, .removing id⟩ := by
        rw [← hphase]
        exact ht
      simp only [PeerState.hear, PeerStep.thread, ht', List.mem_filter, decide_eq_true_eq] at hr
      obtain ⟨hmem, hkept⟩ := hr
      refine ⟨hkept.resolve_right ?_, (h r hmem).2⟩
      rintro ⟨rfl, hl⟩
      exact (h r hmem).2 hl ⟨k, by simp [ht']⟩
  · cases hstep

theorem heardKept_step (h : HeardKept s heard) (hallowed : NotRemoving s heard e)
    (hstep : peerStep s e = some s') : HeardKept s' (s.hear e heard) := by
  have hthread : (s.threads e.thread).bind (fun t ↦ s.threadStep e.thread t e) = some s' →
      HeardKept s' (s.hear e heard) := by
    intro hstep
    obtain ⟨t, ht, hstep⟩ := Option.bind_eq_some_iff.mp hstep
    exact heardKept_threadStep h hallowed ht hstep
  cases e with
  | alloc k outbound =>
      unfold peerStep at hstep
      dsimp only at hstep
      split_ifs at hstep
      obtain ⟨i, -, rfl⟩ := Option.map_eq_some_iff.mp hstep
      refine h.frame rfl (fun x id hl ↦ ?_) fun id hr ↦ ?_
      · exact (PeerState.linked_setConn hl).resolve_right fun hc ↦ (nomatch hc.2.1)
      · rcases PeerState.removing_goto hr with hphase | hr
        · cases hphase
        · exact hr
  | _ => exact hthread hstep

/-- In every interleaving in which no SUB_NOTIFY is handled over a connection to
a node that a thread is about to remove, what was heard over a link that still
stands is in the route table. -/
theorem heard_stays {selfId : NodeId}
    (h : Reach (relink cfg κ) NotRemoving (.start cfg κ selfId) [] s heard) :
    ∀ e ∈ heard, s.Linked e.conn e.node → e.Present s.routes := by
  have hinv : HeardKept s heard :=
    h.invariant (I := HeardKept) (by simp [HeardKept])
      fun _ hI hallowed hs ↦ heardKept_step hI hallowed hs
  exact fun e he _ ↦ (hinv e he).1

end

/-! ## A connection that comes up between the two steps -/

/-- The first connection ends, and its thread finds no other. -/
def firstEnds : List (PeerStep (Fin 3)) :=
  openTo 0 ++ [.fail 0, .close 0, .clearSend 0, .look 0]

/-- The second connection comes up and brings a subscription. -/
def secondBrings : List (PeerStep (Fin 3)) := openTo 1 ++ [.subscribe 1 highId [97] 0]

/-- The program after these steps, with what was heard. -/
def relinkRun (es : List (PeerStep (Fin 3))) :
    Option (PeerState Config.posix (Fin 3) × List (Heard (Fin 3))) :=
  run (relink Config.posix (Fin 3)) (.start Config.posix (Fin 3) lowId, []) es

/-- What the second connection brings. -/
def brought : Heard (Fin 3) := ⟨1, highId, highId, [97], true⟩

instance (s : PeerState Config.posix (Fin 3)) (heard : List (Heard (Fin 3))) :
    DecidablePred (NotRemoving s heard) := fun e ↦ by
  cases e with
  | subscribe k owner filter qos =>
      exact decidable_of_iff ((s.threads k).all fun t ↦
        !decide (s.Removing (s.conns t.slot).nodeId)) (by cases hk : s.threads k <;> simp [NotRemoving, hk])
  | _ => exact inferInstanceAs (Decidable True)

/-- The statement where the node is removed before the second connection comes up. -/
theorem heard_stays_after : ∃ s heard,
    relinkRun (firstEnds ++ [.remove 0] ++ secondBrings) = some (s, heard) ∧
      heard = [brought] ∧ s.Linked 1 highId ∧
        ∀ e ∈ heard, s.Linked e.conn e.node → e.Present s.routes := by
  have hchecked : checked (relink Config.posix (Fin 3)) NotRemoving
      (.start Config.posix (Fin 3) lowId) [] (firstEnds ++ [.remove 0] ++ secondBrings) = true := by
    decide +kernel
  obtain ⟨s, heard, hrun⟩ := exists_run_of_checked hchecked
  have hend : ((relinkRun (firstEnds ++ [.remove 0] ++ secondBrings)).map fun r ↦
      decide (r.2 = [brought] ∧ r.1.Linked 1 highId)) = some true := by
    decide +kernel
  rw [relinkRun, hrun] at hend
  obtain ⟨hheard, hlinked⟩ := of_decide_eq_true (Option.some.inj hend)
  exact ⟨s, heard, hrun, hheard, hlinked,
    heard_stays (Reach.start.run_of_checked hchecked hrun)⟩

/-- The second connection comes up before the first one's thread removes the node. -/
theorem removal_wipes_heard : ∃ s heard,
    relinkRun (firstEnds ++ secondBrings ++ [.remove 0]) = some (s, heard) ∧ brought ∈ heard ∧
      (s.threads 0).map PeerThread.phase = some .returned ∧ s.Linked 1 highId ∧
      ¬ s.routes.Holds highId [97] ∧ ¬ s.routes.Routed highId [97] := by
  have hrun : ((relinkRun (firstEnds ++ secondBrings ++ [.remove 0])).map fun r ↦
      decide (brought ∈ r.2 ∧ (r.1.threads 0).map PeerThread.phase = some .returned ∧
        r.1.Linked 1 highId ∧ ¬ r.1.routes.Holds highId [97] ∧
          ¬ r.1.routes.Routed highId [97])) = some true := by
    decide +kernel
  obtain ⟨r, hr, hend⟩ := Option.map_eq_some_iff.mp hrun
  exact ⟨r.1, r.2, hr, of_decide_eq_true hend⟩

end MqttBroker
