import MqttBroker.Client.Away
import MqttBroker.Mesh.Announce

/-!
# Filters of offline sessions and the routers

The threads of the connections together with what they tell the routers: the notifications
that a section under `topic_lock` leads to are sent one by one after it.
-/

namespace MqttBroker

open Observer

variable {cfg : Config} {κ σ R : Type}

/-- The broker's threads, what each connection's thread has still to send to which routers,
and what each router was sent. -/
structure TellState (cfg : Config) (κ σ R : Type) where
  threads : Threads cfg κ σ
  calls : κ → List (Notify × List R)
  received : R → List Notify

inductive TellStep (κ σ R : Type) where
  /-- a thread that has nothing left to send takes a step; `targets` are the routers that are
  sent the notifications of it -/
  | thread (e : ThreadEvent κ σ) (targets : Notify → List R)
  /-- a connection's thread sends a notification to the next router, or returns from
  `p2p_local_subscribe` or `p2p_local_unsubscribe` -/
  | tell (k : κ)

/-- The notifications among what a handler causes. -/
def notified (log : List (Output cfg κ)) : List Notify :=
  log.filterMap fun
    | .notify m => some m
    | _ => none

variable [DecidableEq κ] [DecidableEq σ] [DecidableEq R]

/-- What a step of a thread is going to tell the routers. -/
def Threads.notes (s : Threads cfg κ σ) : ThreadEvent κ σ → List Notify
  | .packet k env pkt =>
      if (s.broker.clients k).state = .connected then
        ((dispatch env s.broker k pkt).map fun h ↦ notified h.log).getD []
      else []
  | .next k env =>
      ((connStep env s.broker k (s.conn k)).map fun r ↦ notified r.1.log).getD []
  | _ => []

def tellStep (s : TellState cfg κ σ R) : TellStep κ σ R → Option (TellState cfg κ σ R)
  | .thread e targets =>
      match e.slot with
      | none => (s.threads.step e).map fun t ↦ { s with threads := t }
      | some k =>
          if (s.calls k).isEmpty then
            (s.threads.step e).map fun t ↦ { s with
              threads := t
              calls := Function.update s.calls k
                (((s.threads.notes e).filter Notify.fits).map fun m ↦ (m, targets m)) }
          else none
  | .tell k =>
      match s.calls k with
      | [] => none
      | (m, r :: rest) :: more => some { s with
          calls := Function.update s.calls k ((m, rest) :: more)
          received := Function.update s.received r (s.received r ++ [m]) }
      | (_, []) :: more => some { s with calls := Function.update s.calls k more }

def TellState.start (cfg : Config) (κ σ R : Type) [Inhabited κ] : TellState cfg κ σ R :=
  ⟨.init cfg κ σ, fun _ ↦ [], fun _ ↦ []⟩

/-- The filters that a router had been told of when `client_free` stored a session. -/
abbrev SavedNotes (cfg : Config) (R : Type) := SessionSlot cfg → R → CStr → Bool

def tellNote (s : TellState cfg κ σ R) (e : TellStep κ σ R) (n : SavedNotes cfg R) :
    SavedNotes cfg R :=
  match e with
  | .thread e _ =>
      match s.threads.savedTo e with
      | some i => Function.update n i fun r f ↦ heard (s.received r) f = some true
      | none => n
  | .tell _ => n

def tellSystem (cfg : Config) (κ σ R : Type) [DecidableEq κ] [DecidableEq σ] [DecidableEq R] :
    System (TellState cfg κ σ R) (TellStep κ σ R) (SavedNotes cfg R) where
  step := tellStep
  note := tellNote

/-- What is sent next does not say of a filter that it was given up which a session stores
and somebody holds again. -/
def Threads.Current (s : Threads cfg κ σ) : List (Notify × List R) → Prop
  | (m, _ :: _) :: _ => m.isSub = false → (∃ i, s.broker.StoredAway i m.filter) →
      ¬ s.broker.table.Held m.filter
  | _ => True

omit [DecidableEq κ] [DecidableEq σ] [DecidableEq R] in
instance (s : Threads cfg κ σ) : DecidablePred (s.Current (R := R))
  | [] | (_, []) :: _ => isTrue trivial
  | (_, _ :: _) :: _ => inferInstanceAs (Decidable (_ → _ → _))

/-- A filter that is stored for a client that is away is not given up by the last client that
holds it, and no router is told late that it was given up before. -/
def Retained (s : TellState cfg κ σ R) : TellStep κ σ R → Prop
  | .thread e _ => s.threads.Covered e
  | .tell k => s.threads.Current (s.calls k)

instance (s : TellState cfg κ σ R) : DecidablePred (Retained s)
  | .thread e _ => inferInstanceAs (Decidable (s.threads.Covered e))
  | .tell k => inferInstanceAs (Decidable (s.threads.Current (s.calls k)))

/-- A filter that is stored for a client that is away is advertised to every router that had
been told of it when the client left. -/
def StaysAdvertised (s : TellState cfg κ σ R) (n : SavedNotes cfg R) : Prop :=
  ∀ i r f, s.threads.broker.StoredAway i f → n i r f = true → heard (s.received r) f = some true

structure TellInv (s : TellState cfg κ σ R) (n : SavedNotes cfg R) : Prop where
  tidy : s.threads.Tidy
  copies : s.threads.CopiesHeld
  stored : s.threads.StoredHeld
  advertised : StaysAdvertised s n

variable {s s' : TellState cfg κ σ R} {n : SavedNotes cfg R}

omit [DecidableEq R] in
/-- A thread's step, whatever it is going to tell. -/
theorem TellInv.thread (hp : cfg.p2pDynamic = true) (h : TellInv s n) {e : ThreadEvent κ σ}
    {targets : Notify → List R} (hcovered : s.threads.Covered e) {t : Threads cfg κ σ}
    (hstep : s.threads.step e = some t) (calls : κ → List (Notify × List R)) :
    TellInv { s with threads := t, calls := calls } (tellNote s (.thread e targets) n) where
  tidy := h.tidy.step hstep
  copies := h.copies.step hstep
  stored := h.stored.step hp h.copies h.tidy hcovered hstep
  advertised := by
    intro i r f hf hn
    simp only [tellNote] at hn
    by_cases hi : s.threads.savedTo e = some i
    · rw [hi] at hn
      dsimp only at hn
      rw [Function.update_self] at hn
      simpa using hn
    · have hbefore := Threads.storedAway_step hstep hi hf
      refine h.advertised i r f hbefore ?_
      cases hsaved : s.threads.savedTo e with
      | none => rwa [hsaved] at hn
      | some j =>
          have hij : i ≠ j := by
            rintro rfl
            exact hi hsaved
          rw [hsaved] at hn
          dsimp only at hn
          rwa [Function.update_of_ne hij] at hn

theorem tellInv_step (hp : cfg.p2pDynamic = true) (h : TellInv s n) {e : TellStep κ σ R}
    (hallowed : Retained s e) (hstep : tellStep s e = some s') : TellInv s' (tellNote s e n) := by
  cases e with
  | thread e targets =>
      simp only [tellStep] at hstep
      split at hstep
      · obtain ⟨t, ht, rfl⟩ := Option.map_eq_some_iff.mp hstep
        exact h.thread hp hallowed ht s.calls
      · split_ifs at hstep
        obtain ⟨t, ht, rfl⟩ := Option.map_eq_some_iff.mp hstep
        exact h.thread hp hallowed ht _
  | tell k =>
      simp only [tellStep] at hstep
      split at hstep
      · cases hstep
      · next m r rest more hcalls =>
          cases hstep
          refine ⟨h.tidy, h.copies, h.stored, fun i r' f hf hn ↦ ?_⟩
          dsimp only at hf ⊢
          have hbefore := h.advertised i r' f hf hn
          by_cases hr : r' = r
          · subst hr
            rw [Function.update_self, heard_append]
            by_cases hm : f = m.filter
            · subst hm
              have hnot : m.isSub ≠ false := by
                intro hsub
                simp only [Retained, hcalls, Threads.Current] at hallowed
                exact hallowed hsub ⟨i, hf⟩ (h.stored i m.filter hf)
              rw [Function.update_self, Bool.eq_true_of_not_eq_false hnot]
            · rwa [Function.update_of_ne hm]
          · rwa [Function.update_of_ne hr]
      · cases hstep
        exact ⟨h.tidy, h.copies, h.stored, h.advertised⟩

omit [DecidableEq σ] [DecidableEq R] in
theorem tellInv_start [Inhabited κ] :
    TellInv (.start cfg κ σ R) fun (_ : SessionSlot cfg) (_ : R) (_ : CStr) ↦ false where
  tidy := Threads.tidy_init
  copies _ _ hx := nomatch hx
  stored _ _ h := nomatch h.1.1
  advertised _ _ _ h := nomatch h.1.1

/-- In every interleaving of the connections and of what they tell the routers: as long as no
filter that is stored for a client that is away loses its last holder, and no router is told
late that such a filter was given up, it stays advertised. -/
theorem stored_filters_advertised [Inhabited κ] (hp : cfg.p2pDynamic = true)
    (h : Reach (tellSystem cfg κ σ R) (fun s _ e ↦ Retained s e) (.start cfg κ σ R)
      (fun _ _ _ ↦ false) s n) : StaysAdvertised s n := by
  have hinv : TellInv s n := h.invariant tellInv_start
    fun _ hI hallowed hs ↦ tellInv_step hp hI hallowed hs
  exact hinv.advertised

/-! ## One client leaves, with and without another one -/

namespace TellSample

def env : Env (Fin 2) := ⟨0, true, fun _ ↦ true⟩

def next (k : Fin 2) (n : ℕ) : List (TellStep (Fin 2) Unit Unit) :=
  List.replicate n (.thread (.next k env) fun _ ↦ [()])

/-- A client connects without clean session and subscribes to `t`, and its thread tells the one
router. -/
def arrive (k : Fin 2) (connect : MqttPacket) (tells : ℕ) : List (TellStep (Fin 2) Unit Unit) :=
  [.thread (.alloc k 5) fun _ ↦ [()], .thread (.connect k env connect) fun _ ↦ [()]] ++ next k 6 ++
    [.thread (.packet k env Sample.subscribePkt) fun _ ↦ [()]] ++ List.replicate tells (.tell k) ++
    next k 1

/-- The client goes, with `n` steps of `client_free`. -/
def leave (k : Fin 2) (n : ℕ) : List (TellStep (Fin 2) Unit Unit) :=
  .thread (.leave k) (fun _ ↦ [()]) :: next k n

def alone : List (TellStep (Fin 2) Unit Unit) :=
  arrive 0 Sample.connectPkt 2 ++ leave 0 11 ++ List.replicate 2 (.tell 0) ++ next 0 3

/-- Another client holds `t` as well. -/
def shared : List (TellStep (Fin 2) Unit Unit) :=
  arrive 0 Sample.connectPkt 2 ++ arrive 1 Sample.connectCleanPkt 0 ++ leave 0 14

def system : System (TellState Config.posix (Fin 2) Unit Unit) (TellStep (Fin 2) Unit Unit)
    (SavedNotes Config.posix Unit) := tellSystem Config.posix (Fin 2) Unit Unit

def run (es : List (TellStep (Fin 2) Unit Unit)) :
    Option (TellState Config.posix (Fin 2) Unit Unit × SavedNotes Config.posix Unit) :=
  Observer.run system (.start _ _ _ _, fun _ _ _ ↦ false) es

/-- Session 0 stores `t` for a client that is away, and the router had been told of `t`. -/
def Saved (r : TellState Config.posix (Fin 2) Unit Unit × SavedNotes Config.posix Unit) : Prop :=
  r.1.threads.broker.StoredAway ⟨0, by decide⟩ [0x74] ∧ r.2 ⟨0, by decide⟩ () [0x74] = true

instance : DecidablePred Saved := fun _ ↦ inferInstanceAs (Decidable (_ ∧ _))

end TellSample

open TellSample

/-- Both clients hold `t` when one of them leaves. -/
theorem shared_filter_advertised : ∃ s n, run shared = some (s, n) ∧ Saved (s, n) ∧
    s.threads.conn 0 = .idle ∧ StaysAdvertised s n := by
  have hrun : (run shared).map (fun r ↦ decide (Saved r ∧ r.1.threads.conn 0 = .idle)) =
      some true := by
    decide +kernel
  obtain ⟨⟨s, n⟩, hs, hfinal⟩ := Option.map_eq_some_iff.mp hrun
  obtain ⟨hsaved, hidle⟩ := of_decide_eq_true hfinal
  refine ⟨s, n, hs, hsaved, hidle, stored_filters_advertised rfl ?_⟩
  have hchecked : checked system (fun s _ e ↦ Retained s e)
      (.start Config.posix (Fin 2) Unit Unit) (fun _ _ _ ↦ false) shared = true := by
    decide +kernel
  exact Reach.start.run_of_checked hchecked hs

/-- The client that leaves is the only one that holds `t`. -/
theorem lone_filter_withdrawn : ∃ s n, run alone = some (s, n) ∧
    Reach system (fun _ _ _ ↦ True) (.start Config.posix (Fin 2) Unit Unit)
      (fun _ _ _ ↦ false) s n ∧ Saved (s, n) ∧ s.threads.conn 0 = .idle ∧
    heard (s.received ()) [0x74] = some false ∧ ¬ StaysAdvertised s n := by
  have hrun : (run alone).map (fun r ↦ decide (Saved r ∧ r.1.threads.conn 0 = .idle ∧
      heard (r.1.received ()) [0x74] = some false)) = some true := by
    decide +kernel
  obtain ⟨⟨s, n⟩, hs, hfinal⟩ := Option.map_eq_some_iff.mp hrun
  obtain ⟨hsaved, hidle, hheard⟩ := of_decide_eq_true hfinal
  refine ⟨s, n, hs, Reach.start.run (fun _ _ _ _ ↦ trivial) hs, hsaved, hidle, hheard,
    fun hstays ↦ ?_⟩
  have htrue := hstays _ () _ hsaved.1 hsaved.2
  rw [hheard] at htrue
  cases htrue

end MqttBroker
