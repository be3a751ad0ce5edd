import MqttBroker.Lib.Deferred
import MqttBroker.Lib.Observer
import MqttBroker.Topic.Holders

/-!
# Announcing changes of the table

`topic_subscribe`, `topic_unsubscribe` and `topic_unsubscribe_all` change the table under
`topic_lock`, and tell the routers after they have unlocked it.
-/

namespace MqttBroker

open Observer

variable {cfg : Config} {κ R T : Type}

/-! ## The threads -/

/-- Where a thread is in one of the three calls. -/
inductive CallPhase (κ R : Type) where
  | returned
  /-- in `topic_unsubscribe_all` before the next section -/
  | between (c : κ)
  /-- in `p2p_local_subscribe` or `p2p_local_unsubscribe`, with the routers that are sent the
  notification yet, and the client of `topic_unsubscribe_all` -/
  | sending (m : Notify) (targets : List R) (all : Option κ)
  deriving DecidableEq

/-- The table, the threads, and what each router was sent. -/
structure AnnounceState (cfg : Config) (κ R T : Type) where
  table : TopicTable cfg κ
  phase : T → CallPhase κ R
  received : R → List Notify

/-- A section under `topic_lock`, or a send after it.  `owner` is the router that owns the
shard of the filter, unless this is the broker itself. -/
inductive CallStep (κ R T : Type) where
  | subscribe (t : T) (c : κ) (filter : CStr) (qos : UInt8) (owner : Option R)
  | unsubscribe (t : T) (c : κ) (filter : CStr) (owner : Option R)
  /-- `topic_unsubscribe_all` is called -/
  | unsubscribeAll (t : T) (c : κ)
  /-- one of its sections -/
  | round (t : T) (owner : Option R)
  /-- the notification is sent to the next router -/
  | send (t : T)
  /-- it was sent to all -/
  | finish (t : T)

/-- After the last notification. -/
def CallPhase.after (all : Option κ) : CallPhase κ R := all.elim .returned .between

/-- After a section under the lock: `p2p_send_sub_to_routers` takes all connected routers. -/
def CallPhase.afterSection (routers : List R) (owner : Option R) (all : Option κ) :
    List Notify → CallPhase κ R
  | [] => .after all
  | m :: _ => if m.fits then .sending m (owner.toList ++ routers) all else .after all

variable [DecidableEq κ] [DecidableEq R] [DecidableEq T]

def announceStep (routers : List R) (s : AnnounceState cfg κ R T) :
    CallStep κ R T → Option (AnnounceState cfg κ R T)
  | .subscribe t c filter qos owner =>
      match s.phase t with
      | .returned =>
          let r := s.table.topicSubscribe c filter qos
          some { s with
            table := r.1
            phase := Function.update s.phase t (.afterSection routers owner none r.2.2) }
      | _ => none
  | .unsubscribe t c filter owner =>
      match s.phase t with
      | .returned => (s.table.topicUnsubscribe c filter).map fun r ↦
          { s with
            table := r.1
            phase := Function.update s.phase t (.afterSection routers owner none r.2) }
      | _ => none
  | .unsubscribeAll t c =>
      match s.phase t with
      | .returned => some { s with phase := Function.update s.phase t (.between c) }
      | _ => none
  | .round t owner =>
      match s.phase t with
      | .between c => (unsubscribeSection s.table c).map fun r ↦
          { s with
            table := r.1
            phase := Function.update s.phase t (match r.2 with
              | none => .returned
              | some notes => .afterSection routers owner (some c) notes) }
      | _ => none
  | .send t =>
      match s.phase t with
      | .sending m (r :: rest) all => some { s with
          phase := Function.update s.phase t (.sending m rest all)
          received := Function.update s.received r (s.received r ++ [m]) }
      | _ => none
  | .finish t =>
      match s.phase t with
      | .sending _ [] all => some { s with phase := Function.update s.phase t (.after all) }
      | _ => none

/-- No thread is in a call, and the routers have heard of nothing. -/
def AnnounceState.start (cfg : Config) (κ R T : Type) [Inhabited κ] : AnnounceState cfg κ R T :=
  ⟨topicInit cfg κ, fun _ ↦ .returned, fun _ ↦ []⟩

/-! ## What the routers know -/

/-- Whether the last notification for a filter is a SUB_NOTIFY; `none` if there is none. -/
def heard (received : List Notify) (filter : CStr) : Option Bool :=
  ((received.filter fun m ↦ m.filter = filter).getLast?).map Notify.isSub

/-- The changes that are announced are numbered. -/
structure AnnounceNotes (R T : Type) where
  changes : ℕ
  /-- the last one of each filter, and whether somebody holds the filter after it -/
  decided : CStr → Option (ℕ × Bool)
  /-- the one that a thread announces -/
  ticket : T → ℕ
  /-- the latest one that a router was told of -/
  latest : R → CStr → ℕ

namespace AnnounceNotes

def start (R T : Type) : AnnounceNotes R T := ⟨0, fun _ ↦ none, fun _ ↦ 0, fun _ _ ↦ 0⟩

/-- Thread `t` is going to announce `m`. -/
def decide (n : AnnounceNotes R T) (t : T) (m : Notify) : AnnounceNotes R T :=
  { n with
    changes := n.changes + 1
    decided := Function.update n.decided m.filter (some (n.changes + 1, m.isSub))
    ticket := Function.update n.ticket t (n.changes + 1) }

def afterSection (n : AnnounceNotes R T) (t : T) : List Notify → AnnounceNotes R T
  | [] => n
  | m :: _ => if m.fits then n.decide t m else n

end AnnounceNotes

def announceNote (s : AnnounceState cfg κ R T) (e : CallStep κ R T) (n : AnnounceNotes R T) :
    AnnounceNotes R T :=
  match e with
  | .subscribe t c filter qos _ => n.afterSection t (s.table.topicSubscribe c filter qos).2.2
  | .unsubscribe t c filter _ =>
      n.afterSection t (((s.table.topicUnsubscribe c filter).map Prod.snd).getD [])
  | .unsubscribeAll _ _ => n
  | .round t _ =>
      match s.phase t with
      | .between c => n.afterSection t (((unsubscribeSection s.table c).bind Prod.snd).getD [])
      | _ => n
  | .send t =>
      match s.phase t with
      | .sending m (r :: _) _ => { n with
          latest := Function.update n.latest r (Function.update (n.latest r) m.filter
            (max (n.latest r m.filter) (n.ticket t))) }
      | _ => n
  | .finish _ => n

def announceSystem (cfg : Config) (κ R T : Type) [DecidableEq κ] [DecidableEq R] [DecidableEq T]
    (routers : List R) :
    System (AnnounceState cfg κ R T) (CallStep κ R T) (AnnounceNotes R T) where
  step := announceStep routers
  note := announceNote

/-- Filters and QoS are such as a SUBSCRIBE packet can have, and no router is told of an older
change after it was told the contrary of a later one. -/
def InOrder (s : AnnounceState cfg κ R T) (n : AnnounceNotes R T) : CallStep κ R T → Prop
  | .subscribe _ _ filter qos _ => filter.length < MQTT_TOPIC_MAX ∧ qos ≤ 2
  | .send t => ∀ m r rest all, s.phase t = .sending m (r :: rest) all →
      n.latest r m.filter ≤ n.ticket t ∨ heard (s.received r) m.filter = some m.isSub
  | _ => True

/-- Every router knows of every filter whether somebody holds it. -/
def RoutersKnow (s : AnnounceState cfg κ R T) : Prop :=
  ∀ r f, heard (s.received r) f = some true ↔ s.table.Held f

/-! ## The invariant -/

/-- What a thread still has to send. -/
def CallPhase.pending : CallPhase κ R → Option (CStr × Bool × List R)
  | .sending m targets _ => some (m.filter, m.isSub, targets)
  | _ => none

structure AnnounceInv (s : AnnounceState cfg κ R T) (n : AnnounceNotes R T) : Prop where
  table : s.table.Announceable
  held : ∀ f, s.table.Held f ↔ (n.decided f).map Prod.snd = some true
  deferred : Deferred.Inv n.decided (CallPhase.pending ∘ s.phase) n.ticket n.latest
    (fun r ↦ heard (s.received r)) n.changes

variable {s s' : AnnounceState cfg κ R T} {n : AnnounceNotes R T} {t : T}

omit [DecidableEq κ] [DecidableEq R] [DecidableEq T] in
theorem heard_append (received : List Notify) (m : Notify) :
    heard (received ++ [m]) = Function.update (heard received) m.filter (some m.isSub) := by
  funext f
  unfold heard
  rw [List.filter_append]
  by_cases hf : f = m.filter
  · subst hf
    rw [Function.update_self]
    simp
  · rw [Function.update_of_ne hf]
    simp [Ne.symm hf]

namespace AnnounceInv

omit [DecidableEq κ] [DecidableEq R] in
/-- A section after which the same filters are held. -/
theorem quiet (h : AnnounceInv s n) (ht : (s.phase t).pending = none)
    {table : TopicTable cfg κ} (htable : table.Announceable)
    (hheld : ∀ f, table.Held f ↔ s.table.Held f) {phase : CallPhase κ R}
    (hphase : phase.pending = none) :
    AnnounceInv { s with table := table, phase := Function.update s.phase t phase } n where
  table := htable
  held f := (hheld f).trans (h.held f)
  deferred := by
    dsimp only
    rw [Function.comp_update, hphase, ← ht, ← Function.comp_apply (f := CallPhase.pending),
      Function.update_eq_self]
    exact h.deferred

omit [DecidableEq κ] [DecidableEq R] in
/-- A section that is announced. -/
theorem decide (h : AnnounceInv s n) (ht : (s.phase t).pending = none)
    {table : TopicTable cfg κ} (htable : table.Announceable) {m : Notify}
    (hm : table.Held m.filter ↔ m.isSub = true)
    (hheld : ∀ f, f ≠ m.filter → (table.Held f ↔ s.table.Held f)) {phase : CallPhase κ R}
    {targets : List R} (hall : ∀ r, r ∈ targets)
    (hphase : phase.pending = some (m.filter, m.isSub, targets)) :
    AnnounceInv { s with table := table, phase := Function.update s.phase t phase }
      (n.decide t m) where
  table := htable
  held f := by
    dsimp only [AnnounceNotes.decide]
    by_cases hf : f = m.filter
    · subst hf
      rw [hm, Function.update_self, Option.map_some, Option.some.injEq]
    · rw [hheld f hf, Function.update_of_ne hf, h.held]
  deferred := by
    dsimp only
    rw [Function.comp_update, hphase]
    exact h.deferred.decide ht hall

omit [DecidableEq κ] [DecidableEq R] in
/-- A section, whether it is announced or not. -/
theorem changed (h : AnnounceInv s n) (ht : (s.phase t).pending = none)
    {table : TopicTable cfg κ} (htable : table.Announceable) {notes : List Notify}
    (hnotes : s.table.Announces table notes) {routers : List R} (hall : ∀ r, r ∈ routers)
    (owner : Option R) (all : Option κ) :
    AnnounceInv { s with
      table := table
      phase := Function.update s.phase t (.afterSection routers owner all notes) }
        (n.afterSection t notes) := by
  rcases hnotes with ⟨rfl, hheld⟩ | ⟨m, rfl, hfits, hm, hheld⟩
  · exact h.quiet ht htable hheld (by cases all <;> rfl)
  · have hphase : CallPhase.afterSection routers owner all [m] =
        .sending m (owner.toList ++ routers) all := if_pos hfits
    have hnote : n.afterSection t [m] = n.decide t m := if_pos hfits
    rw [hphase, hnote]
    exact h.decide ht htable hm hheld (fun r ↦ List.mem_append_right _ (hall r)) rfl

end AnnounceInv

omit [DecidableEq κ] [DecidableEq R] [DecidableEq T] in
theorem announceInv_start [Inhabited κ] : AnnounceInv (.start cfg κ R T) (.start R T) where
  table i x hx := by cases (TopicTable.sub_init i).symm.trans hx
  held f := iff_of_false (fun ⟨i, huse, _⟩ ↦ by cases huse) nofun
  deferred := Deferred.inv_start

theorem announceInv_step {routers : List R} (hp : cfg.p2pDynamic = true)
    (hall : ∀ r, r ∈ routers) (h : AnnounceInv s n) {e : CallStep κ R T} (hallowed : InOrder s n e)
    (hstep : announceStep routers s e = some s') : AnnounceInv s' (announceNote s e n) := by
  cases e with
  | subscribe t c filter qos owner =>
      simp only [announceStep] at hstep
      split at hstep
      · next ht =>
          cases hstep
          refine h.changed (by rw [ht]; rfl) (h.table.topicSubscribe fun k ↦ ⟨hallowed.2, ?_⟩)
            (TopicTable.topicSubscribe_announces hp h.table c hallowed.1 hallowed.2) hall owner none
          exact lt_of_le_of_lt (List.length_take_le' _ _) hallowed.1
      · cases hstep
  | unsubscribe t c filter owner =>
      simp only [announceStep] at hstep
      split at hstep
      · next ht =>
          obtain ⟨r, hr, rfl⟩ := Option.map_eq_some_iff.mp hstep
          simp only [announceNote, hr]
          exact h.changed (by rw [ht]; rfl) (h.table.topicUnsubscribe hr)
            (TopicTable.topicUnsubscribe_announces hp h.table hr) hall owner none
      · cases hstep
  | unsubscribeAll t c =>
      simp only [announceStep] at hstep
      split at hstep
      · next ht =>
          cases hstep
          exact h.quiet (by rw [ht]; rfl) h.table (fun _ ↦ Iff.rfl) rfl
      · cases hstep
  | round t owner =>
      simp only [announceStep] at hstep
      simp only [announceNote]
      split at hstep
      · next c ht =>
          obtain ⟨r, hr, rfl⟩ := Option.map_eq_some_iff.mp hstep
          have htable := h.table.removed (unsubscribeSection_removed hr).1
          have hann := TopicTable.unsubscribeSection_announces hp h.table hr
          obtain ⟨table, notes⟩ := r
          simp only [hr]
          cases notes with
          | none =>
              rcases hann with ⟨-, hheld⟩ | ⟨m, hm, -⟩
              · exact h.quiet (by rw [ht]; rfl) htable hheld rfl
              · cases hm
          | some notes => exact h.changed (by rw [ht]; rfl) htable hann hall owner (some c)
      · cases hstep
  | send t =>
      simp only [announceStep] at hstep
      simp only [announceNote]
      split at hstep
      · next m r rest all ht =>
          cases hstep
          have hpending : (CallPhase.pending ∘ s.phase) t =
              some (m.filter, m.isSub, r :: rest) := by
            rw [Function.comp_apply, ht]
            rfl
          have hsent := h.deferred.send hpending (hallowed m r rest all ht)
          refine ⟨h.table, h.held, ?_⟩
          dsimp only
          have hheard : (fun r' ↦ heard (Function.update s.received r (s.received r ++ [m]) r')) =
              Function.update (fun r' ↦ heard (s.received r')) r
                (Function.update (heard (s.received r)) m.filter (some m.isSub)) := by
            funext r'
            rw [Function.update_apply, Function.update_apply]
            split_ifs
            · exact heard_append _ m
            · rfl
          rw [Function.comp_update, hheard]
          exact hsent
      · cases hstep
  | finish t =>
      simp only [announceStep] at hstep
      split at hstep
      · next m all ht =>
          cases hstep
          have hpending : (CallPhase.pending ∘ s.phase) t = some (m.filter, m.isSub, []) := by
            rw [Function.comp_apply, ht]
            rfl
          refine ⟨h.table, h.held, ?_⟩
          dsimp only
          have hnone : (CallPhase.after all : CallPhase κ R).pending = none := by cases all <;> rfl
          rw [Function.comp_update, hnone]
          exact h.deferred.finish hpending
      · cases hstep

/-- In every interleaving of the calls: as long as no router is told of an older change after
it was told the contrary of a later one, when all calls have returned every router was told
last of each filter whether some client holds it. -/
theorem routers_know [Inhabited κ] {routers : List R} (hp : cfg.p2pDynamic = true)
    (hall : ∀ r, r ∈ routers)
    (h : Reach (announceSystem cfg κ R T routers) InOrder (.start cfg κ R T) (.start R T) s n)
    (hreturned : ∀ t, s.phase t = .returned) : RoutersKnow s := by
  have hinv : AnnounceInv s n := h.invariant announceInv_start
    fun _ hI hallowed hs ↦ announceInv_step hp hall hI hallowed hs
  intro r f
  have hidle : ∀ t, (CallPhase.pending ∘ s.phase) t = none := fun t ↦ by
    rw [Function.comp_apply, hreturned t]
    rfl
  rw [hinv.held, ← hinv.deferred.heard_eq hidle r f]

/-! ## Two calls that overlap -/

namespace AnnounceSample

def filter : CStr := [0x61]

/-- Client 0 subscribes, and its thread tells the one router. -/
def subscribed : List (CallStep ℕ Unit (Fin 2)) :=
  [.subscribe 0 0 filter 1 none, .send 0, .finish 0]

/-- Then client 0 unsubscribes, and before its thread tells the router, client 1 subscribes and
its thread does. -/
def overlapping : List (CallStep ℕ Unit (Fin 2)) :=
  subscribed ++ [.unsubscribe 0 0 filter none, .subscribe 1 1 filter 1 none, .send 1, .finish 1,
    .send 0, .finish 0]

def system : System (AnnounceState Config.posix ℕ Unit (Fin 2)) (CallStep ℕ Unit (Fin 2))
    (AnnounceNotes Unit (Fin 2)) :=
  announceSystem Config.posix ℕ Unit (Fin 2) [()]

def run (es : List (CallStep ℕ Unit (Fin 2))) :
    Option (AnnounceState Config.posix ℕ Unit (Fin 2) × AnnounceNotes Unit (Fin 2)) :=
  Observer.run system (.start Config.posix ℕ Unit (Fin 2), .start Unit (Fin 2)) es

end AnnounceSample

open AnnounceSample

theorem routers_know_one : ∃ s n, run subscribed = some (s, n) ∧
    heard (s.received ()) filter = some true ∧ RoutersKnow s := by
  have hreach : Reach system InOrder (.start Config.posix ℕ Unit (Fin 2)) (.start Unit (Fin 2))
      _ _ :=
    ((Reach.start.step (e := .subscribe 0 0 filter 1 none) ⟨by decide, by decide⟩ rfl).step
      (e := .send 0) (fun _ _ _ _ _ ↦ .inl (Nat.zero_le _)) rfl).step
      (e := .finish 0) (by trivial) rfl
  refine ⟨_, _, rfl, by decide +kernel,
    routers_know rfl (fun _ ↦ List.mem_singleton_self _) hreach ?_⟩
  decide +kernel

/-- When both calls have returned, client 1 holds the filter and the router has heard of an
UNSUB_NOTIFY last. -/
theorem overlapping_announced_late : ∃ s n, run overlapping = some (s, n) ∧
    Reach system (fun _ _ _ ↦ True) (.start Config.posix ℕ Unit (Fin 2)) (.start Unit (Fin 2)) s n ∧
    (∀ t, s.phase t = .returned) ∧ heard (s.received ()) filter = some false ∧
    s.table.Held filter ∧ ¬ RoutersKnow s := by
  have hrun : (run overlapping).map (fun r ↦ decide ((∀ t, r.1.phase t = .returned) ∧
      heard (r.1.received ()) filter = some false ∧ r.1.table.HoldsAt filter ⟨0, by decide⟩)) =
        some true := by
    decide +kernel
  obtain ⟨⟨s, n⟩, hs, hfinal⟩ := Option.map_eq_some_iff.mp hrun
  obtain ⟨hreturned, hheard, hheld⟩ := of_decide_eq_true hfinal
  refine ⟨s, n, hs, Reach.start.run (fun _ _ _ _ ↦ trivial) hs, hreturned, hheard, ⟨_, hheld⟩,
    fun hknow ↦ ?_⟩
  have htrue := (hknow () filter).mpr ⟨_, hheld⟩
  rw [hheard] at htrue
  cases htrue

end MqttBroker
