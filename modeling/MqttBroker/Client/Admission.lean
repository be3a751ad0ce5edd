import MqttBroker.Client.Leaks

/-!
# Which connections are admitted

`broker_accept_one` compares the used slots with the admission limit before
`client_alloc` looks for a free one, and does not hold `pool_lock` in between.
One thread accepts, and the others only free slots or lose them.
-/

namespace MqttBroker

def Connack.serverUnavail : UInt8 := 0x03

variable {cfg : Config} {σ : Type} [DecidableEq σ]

instance (cfg : Config) : Inhabited (Fin cfg.maxClients) := ⟨⟨0, cfg.maxClients_pos⟩⟩

/-! ## The limit -/

/-- `broker_set_admission_limit`, with the return code; `standard` is
`MQTT_ADMISSION_MAX_CLIENTS`. -/
def brokerSetAdmissionLimit (cfg : Config) (standard limit maxClients : ℕ) : ℕ × ℤ :=
  if maxClients = 0 then (standard, 0)
  else if cfg.maxClients < maxClients then (limit, -22)
  else (maxClients, 0)

/-- The limit after `broker_init`. -/
def brokerInitLimit (cfg : Config) (limit : ℕ) : ℕ :=
  if cfg.maxClients < limit then cfg.maxClients else limit

/-- The limit that `broker_run` starts with, after some calls of
`broker_set_admission_limit` and `broker_init`. -/
def configuredLimit (cfg : Config) (standard : ℕ) (calls : List ℕ) : ℕ :=
  brokerInitLimit cfg
    (calls.foldl (fun limit n ↦ (brokerSetAdmissionLimit cfg standard limit n).1) standard)

theorem configuredLimit_le (standard : ℕ) (calls : List ℕ) :
    configuredLimit cfg standard calls ≤ cfg.maxClients := by
  unfold configuredLimit brokerInitLimit
  split_ifs with hover
  · exact le_rfl
  · exact not_lt.mp hover

/-! ## Accepting -/

/-- What becomes of an accepted descriptor. -/
inductive Admitted (cfg : Config) where
  | served (k : Fin cfg.maxClients)
  /-- closed, after this was sent to it -/
  | refused (sent : Option Bytes)
  deriving DecidableEq

/-- `reject_server_unavailable` -/
def rejectServerUnavailable : Admitted cfg :=
  .refused (packetBuildConnack 0 Connack.serverUnavail 4)

/-- `broker_run` as the thread that accepts, and the other threads. -/
structure Acceptor (cfg : Config) (σ : Type) where
  threads : Threads cfg (Fin cfg.maxClients) σ
  /-- `admission_limit` -/
  limit : ℕ
  /-- in `broker_accept_one`, past the test of the limit -/
  pending : Option ℤ
  /-- ghost: what became of the descriptors -/
  log : List (ℤ × Admitted cfg)
  /-- ghost: the slots that a publish sent to when they were free -/
  hits : Fin cfg.maxClients → Bool

inductive AcceptEvent (cfg : Config) (σ : Type) where
  | accept (fd : ℤ)
  /-- `client_alloc`, and whether `plat_thread_spawn` succeeds -/
  | alloc (spawnOk : Bool)
  | thread (e : ThreadEvent (Fin cfg.maxClients) σ)

namespace Acceptor

/-- `client_used_slots()` -/
def used (a : Acceptor cfg σ) : ℕ :=
  clientUsedSlots a.threads.broker.clients (List.finRange cfg.maxClients)

/-- The connections that have a thread. -/
def running (a : Acceptor cfg σ) : ℕ :=
  (List.finRange cfg.maxClients).countP fun k ↦ (a.threads.conn k).running

/-- The slots that are lost. -/
def lost (a : Acceptor cfg σ) : ℕ := (List.finRange cfg.maxClients).countP a.hits

def init (cfg : Config) (σ : Type) (limit : ℕ) :
    Acceptor cfg σ where
  threads := Threads.init cfg (Fin cfg.maxClients) σ
  limit := limit
  pending := none
  log := []
  hits _ := false

/-- The slot that `client_alloc` takes. -/
def freeSlot (a : Acceptor cfg σ) : Option (Fin cfg.maxClients) :=
  (List.finRange cfg.maxClients).find? fun k ↦ (a.threads.broker.clients k).state = .free

/-- `client_alloc` with the rest of `broker_accept_one`. -/
def alloc (a : Acceptor cfg σ) (fd : ℤ) (spawnOk : Bool) : Option (Acceptor cfg σ) :=
  match a.freeSlot with
  | none => some { a with pending := none, log := a.log ++ [(fd, rejectServerUnavailable)] }
  | some k =>
      if spawnOk then
        (a.threads.step (.alloc k fd)).map fun t ↦
          { a with threads := t, pending := none, log := a.log ++ [(fd, .served k)] }
      else
        -- the slot is cleared and stays free
        some { a with
          threads := { a.threads with broker := a.threads.broker.updateClient k fun _ ↦ default }
          pending := none
          log := a.log ++ [(fd, rejectServerUnavailable)] }

def step (a : Acceptor cfg σ) : AcceptEvent cfg σ → Option (Acceptor cfg σ)
  | .accept fd =>
      match a.pending with
      | some _ => none
      | none =>
          if a.limit < cfg.maxClients ∧ a.limit ≤ a.used then
            some { a with log := a.log ++ [(fd, rejectServerUnavailable)] }
          else some { a with pending := some fd }
  | .alloc spawnOk => a.pending.bind fun fd ↦ a.alloc fd spawnOk
  | .thread e =>
      match e with
      | .alloc _ _ => none
      | e => (a.threads.step e).map fun t ↦
          { a with threads := t, hits := (Threads.leaks _ _ _).note a.threads e a.hits }

/-- The states of the runs. -/
inductive Reach (limit : ℕ) : Acceptor cfg σ → Prop where
  | init : Reach limit (init cfg σ limit)
  | step {a a' : Acceptor cfg σ} {e : AcceptEvent cfg σ} (h : Reach limit a)
      (hstep : a.step e = some a') : Reach limit a'

/-- A run given by its events. -/
def run (a : Acceptor cfg σ) (es : List (AcceptEvent cfg σ)) : Option (Acceptor cfg σ) :=
  es.foldlM step a

theorem Reach.run {limit : ℕ} {a a' : Acceptor cfg σ}
    (h : Reach limit a) {es : List (AcceptEvent cfg σ)} (hrun : a.run es = some a') :
    Reach limit a' := by
  induction es generalizing a with
  | nil =>
      cases hrun
      exact h
  | cons e es ih =>
      obtain ⟨a₁, hstep, hrest⟩ := Option.bind_eq_some_iff.mp hrun
      exact ih (h.step hstep) hrest

/-! ## What a step does -/

variable {a a' : Acceptor cfg σ} {e : AcceptEvent cfg σ}

inductive StepCase (a : Acceptor cfg σ) : AcceptEvent cfg σ → Acceptor cfg σ → Prop where
  | limited (fd : ℤ) (hpending : a.pending = none)
      (hover : a.limit < cfg.maxClients ∧ a.limit ≤ a.used) :
      StepCase a (.accept fd) { a with log := a.log ++ [(fd, rejectServerUnavailable)] }
  | checked (fd : ℤ) (hpending : a.pending = none)
      (hunder : a.limit < cfg.maxClients → a.used < a.limit) :
      StepCase a (.accept fd) { a with pending := some fd }
  | full (fd : ℤ) (spawnOk : Bool) (hpending : a.pending = some fd) (hfull : a.freeSlot = none) :
      StepCase a (.alloc spawnOk)
        { a with pending := none, log := a.log ++ [(fd, rejectServerUnavailable)] }
  | served (fd : ℤ) (k : Fin cfg.maxClients) (t : Threads cfg (Fin cfg.maxClients) σ)
      (hpending : a.pending = some fd) (hslot : a.freeSlot = some k)
      (hstep : a.threads.step (.alloc k fd) = some t) :
      StepCase a (.alloc true)
        { a with threads := t, pending := none, log := a.log ++ [(fd, .served k)] }
  | spawnFailed (fd : ℤ) (k : Fin cfg.maxClients) (hpending : a.pending = some fd)
      (hslot : a.freeSlot = some k) :
      StepCase a (.alloc false) { a with
        threads := { a.threads with broker := a.threads.broker.updateClient k fun _ ↦ default }
        pending := none
        log := a.log ++ [(fd, rejectServerUnavailable)] }
  | thread (e : ThreadEvent (Fin cfg.maxClients) σ) (t : Threads cfg (Fin cfg.maxClients) σ)
      (halloc : ∀ k fd, e ≠ .alloc k fd) (hstep : a.threads.step e = some t) :
      StepCase a (.thread e)
        { a with threads := t, hits := (Threads.leaks _ _ _).note a.threads e a.hits }

theorem step_cases (h : a.step e = some a') : StepCase a e a' := by
  cases e with
  | accept fd =>
      simp only [step] at h
      split at h
      · cases h
      · rename_i hpending
        split_ifs at h with hover
        · cases h
          exact .limited fd hpending hover
        · cases h
          refine .checked fd hpending fun hlimit ↦ ?_
          exact not_le.mp fun hle ↦ hover ⟨hlimit, hle⟩
  | alloc spawnOk =>
      obtain ⟨fd, hpending, h⟩ := Option.bind_eq_some_iff.mp h
      unfold alloc at h
      split at h
      · rename_i hfull
        cases h
        exact .full fd spawnOk hpending hfull
      · rename_i k hslot
        cases spawnOk with
        | true =>
            obtain ⟨t, hstep, rfl⟩ := Option.map_eq_some_iff.mp h
            exact .served fd k t hpending hslot hstep
        | false =>
            cases h
            exact .spawnFailed fd k hpending hslot
  | thread e =>
      simp only [step] at h
      split at h
      · cases h
      · rename_i hne
        obtain ⟨t, hstep, rfl⟩ := Option.map_eq_some_iff.mp h
        exact .thread e t (fun k fd he ↦ hne k fd he) hstep

/-! ## Along a run -/

omit [DecidableEq σ] in
theorem running_le (a : Acceptor cfg σ) : a.running ≤ cfg.maxClients := by
  have hlength := List.length_finRange (n := cfg.maxClients)
  exact (List.countP_le_length (l := List.finRange cfg.maxClients)).trans hlength.le

/-- At most one more slot has a thread if the others are as they were. -/
theorem countP_le_succ {κ : Type} {p p' : κ → Bool} {k : κ} (hsame : ∀ j, j ≠ k → p' j = p j)
    {pool : List κ} (hnodup : pool.Nodup) : pool.countP p' ≤ pool.countP p + 1 := by
  induction pool with
  | nil => simp
  | cons j pool ih =>
      obtain ⟨hj, hnodup⟩ := List.nodup_cons.mp hnodup
      simp only [List.countP_cons]
      by_cases hjk : j = k
      · subst hjk
        have hrest : pool.countP p' = pool.countP p :=
          List.countP_congr fun i hi ↦ by rw [hsame i fun hij ↦ hj (hij ▸ hi)]
        rw [hrest]
        split_ifs <;> omega
      · have hrest := ih hnodup
        rw [hsame j hjk]
        omega

omit [DecidableEq σ] in
/-- A freed slot that is cleared stays free. -/
theorem lostIffHit_clear {t : Threads cfg (Fin cfg.maxClients) σ} {hits : Fin cfg.maxClients → Bool}
    (ht : t.LostIffHit hits) {k : Fin cfg.maxClients} (hk : (t.broker.clients k).state = .free) :
    Threads.LostIffHit { t with broker := t.broker.updateClient k fun _ ↦ default } hits := by
  have hself : (t.broker.updateClient k fun _ ↦ default).clients k = default :=
    Function.update_self _ _ _
  have hother : ∀ j, j ≠ k → (t.broker.updateClient k fun _ ↦ default).clients j =
      t.broker.clients j := fun j hj ↦ Function.update_of_ne hj _ _
  refine ⟨fun j hfree ↦ ?_, fun j hclosed ↦ ?_, fun j ↦ ?_⟩ <;> by_cases hj : j = k
  · subst hj
    exact ht.free j hk
  · dsimp only at hfree
    rw [hother j hj] at hfree
    exact ht.free j hfree
  · subst hj
    dsimp only
    rw [hself]
    exact Int.negSucc_lt_zero 0
  · dsimp only
    rw [hother j hj]
    exact ht.closed j hclosed
  · subst hj
    have hnot : ¬t.Lost j := fun hlost ↦ hlost.2 hk
    rw [← ht.lost j]
    simp only [Threads.Lost, hself] at hnot ⊢
    exact ⟨fun hlost ↦ absurd rfl hlost.2, fun hlost ↦ absurd hlost hnot⟩
  · rw [← ht.lost j]
    simp only [Threads.Lost, hother j hj]

/-- What holds in every state: the slots are free, lost or have a thread, and a descriptor
past the test still has room. -/
structure Bounded (limit : ℕ) (a : Acceptor cfg σ) : Prop where
  limitEq : a.limit = limit
  slots : a.threads.LostIffHit a.hits
  running : a.running ≤ limit
  room : a.pending ≠ none → limit < cfg.maxClients → a.running < limit

omit [DecidableEq σ] in
theorem Bounded.used_eq {limit : ℕ} (ha : a.Bounded limit) : a.used = a.running + a.lost :=
  ha.slots.used _

omit [DecidableEq σ] in
theorem freeSlot_eq_some {k : Fin cfg.maxClients} (h : a.freeSlot = some k) :
    (a.threads.broker.clients k).state = .free := by
  simpa using List.find?_some h

omit [DecidableEq σ] in
theorem used_le (a : Acceptor cfg σ) : a.used ≤ cfg.maxClients := by
  have hlength := List.length_finRange (n := cfg.maxClients)
  exact (List.countP_le_length (l := List.finRange cfg.maxClients)).trans hlength.le

omit [DecidableEq σ] in
/-- No slot is free exactly if all are used. -/
theorem freeSlot_eq_none : a.freeSlot = none ↔ a.used = cfg.maxClients := by
  have hlength := List.length_finRange (n := cfg.maxClients)
  have hcount : a.used = cfg.maxClients ↔ a.used = (List.finRange cfg.maxClients).length := by
    rw [hlength]
  unfold freeSlot
  rw [hcount, used, clientUsedSlots, List.countP_eq_length, List.find?_eq_none]
  simp

/-- Only `client_alloc` starts a thread. -/
theorem running_thread {t t' : Threads cfg (Fin cfg.maxClients) σ}
    {e : ThreadEvent (Fin cfg.maxClients) σ} (halloc : ∀ k fd, e ≠ .alloc k fd)
    (hstep : t.step e = some t') :
    ((List.finRange cfg.maxClients).countP fun k ↦ (t'.conn k).running) ≤
      (List.finRange cfg.maxClients).countP fun k ↦ (t.conn k).running := by
  refine List.countP_mono_left fun k _ hrunning ↦ ?_
  by_contra hidle
  have hidle' := Threads.step_idle hstep (ConnPc.running_eq_false.mp (by simpa using hidle))
    (fun fd ↦ halloc k fd)
  rw [hidle'] at hrunning
  cases hrunning

theorem Bounded.step {limit : ℕ}
    (hlimit : limit ≤ cfg.maxClients) (ha : a.Bounded limit) (h : a.step e = some a') :
    a'.Bounded limit := by
  obtain ⟨hl, hslots, hrunning, hroom⟩ := ha
  cases step_cases h with
  | limited fd hpending hover => exact ⟨hl, hslots, hrunning, hroom⟩
  | checked fd hpending hunder =>
      refine ⟨hl, hslots, hrunning, fun _ hlt ↦ ?_⟩
      have hused := hunder (hl ▸ hlt)
      have heq : a.used = a.running + a.lost := hslots.used _
      change a.running < limit
      omega
  | full fd spawnOk hpending hfull => exact ⟨hl, hslots, hrunning, fun hp ↦ absurd rfl hp⟩
  | spawnFailed fd k hpending hslot =>
      exact ⟨hl, lostIffHit_clear hslots (freeSlot_eq_some hslot), hrunning,
        fun hp ↦ absurd rfl hp⟩
  | served fd k t hpending hslot hstep =>
      have hnote : (Threads.leaks cfg (Fin cfg.maxClients) σ).note a.threads (.alloc k fd) a.hits =
          a.hits := by
        funext j
        simp [Threads.leaks, Threads.freedTarget, Threads.sendTarget]
      refine ⟨hl, hnote ▸ hslots.step hstep, ?_, fun hp ↦ absurd rfl hp⟩
      rcases hlimit.lt_or_eq with hlt | heq
      · have hone : ((List.finRange cfg.maxClients).countP fun j ↦ (t.conn j).running) ≤
            a.running + 1 := by
          refine countP_le_succ (k := k) (fun j hj ↦ ?_) (List.nodup_finRange _)
          have hconn := (Threads.step_untouched hstep (k := j)
            (fun hs ↦ hj (Option.some.inj hs).symm)).conn
          rw [hconn]
        have hbelow := hroom (by simp [hpending]) hlt
        exact hone.trans hbelow
      · rw [heq]
        exact running_le _
  | thread e t halloc hstep =>
      have hle := running_thread halloc hstep
      refine ⟨hl, hslots.step hstep, hle.trans hrunning, fun hp hlt ↦ ?_⟩
      exact lt_of_le_of_lt hle (hroom hp hlt)

theorem bounded_of_reach {limit : ℕ}
    (hlimit : limit ≤ cfg.maxClients) (h : Reach limit a) : a.Bounded limit := by
  induction h with
  | init =>
      refine ⟨rfl, ⟨fun _ _ ↦ rfl, fun _ _ ↦ Int.negSucc_lt_zero 0, fun k ↦ ?_⟩, ?_,
        fun hp ↦ absurd rfl hp⟩
      · exact ⟨fun hlost ↦ absurd rfl hlost.2, fun hhit ↦ by cases hhit⟩
      · have hnone : (init cfg σ limit).running = 0 := by
          simp [running, init, Threads.init, ConnPc.running]
        omega
  | step _ hstep ih => exact ih.step hlimit hstep

/-- Whom a broker admits in state `a`: no more than the limit at once, as long as no more
than the limit are connected or lost. -/
structure Admits (limit : ℕ) (a : Acceptor cfg σ) : Prop where
  running : a.running ≤ limit
  /-- the test of the limit -/
  accept : ∀ fd a', a.step (.accept fd) = some a' →
    (a'.pending = some fd ↔ limit < cfg.maxClients → a.running + a.lost < limit)
  /-- `client_alloc` -/
  alloc : ∀ fd spawnOk a', a.pending = some fd → a.step (.alloc spawnOk) = some a' →
    (a'.log ≠ a.log ++ [(fd, rejectServerUnavailable)] ↔
      spawnOk = true ∧ a.running + a.lost < cfg.maxClients)

theorem Bounded.admits {limit : ℕ} (ha : a.Bounded limit) : a.Admits limit := by
  have hused : a.used = a.running + a.lost := ha.used_eq
  refine ⟨ha.running, fun fd a' h ↦ ?_, fun fd spawnOk a' hfd h ↦ ?_⟩
  · rw [← ha.limitEq, ← hused]
    cases step_cases h with
    | limited _ hpending hover =>
        simp only [hpending]
        exact iff_of_false (by simp) fun hroom ↦ absurd (hroom hover.1) (not_lt.mpr hover.2)
    | checked _ hpending hunder => exact iff_of_true rfl hunder
  · rw [← hused]
    have hle := used_le a
    have hfull := freeSlot_eq_none (a := a)
    cases step_cases h with
    | full fd' spawnOk hpending hnone =>
        obtain rfl := Option.some.inj (hpending.symm.trans hfd)
        have heq := hfull.mp hnone
        exact iff_of_false (fun hne ↦ hne rfl) fun hroom ↦ by omega
    | spawnFailed fd' k hpending hslot =>
        obtain rfl := Option.some.inj (hpending.symm.trans hfd)
        exact iff_of_false (fun hne ↦ hne rfl) fun hroom ↦ by cases hroom.1
    | served fd' k t hpending hslot =>
        obtain rfl := Option.some.inj (hpending.symm.trans hfd)
        have hne : a.used ≠ cfg.maxClients := fun heq ↦ by
          rw [hfull.mpr heq] at hslot
          cases hslot
        refine iff_of_true (fun heq ↦ ?_) ⟨rfl, by omega⟩
        simp [rejectServerUnavailable] at heq

/-- Once as many slots are lost as the limit allows connections, nobody is served. -/
structure Closed (limit : ℕ) (a : Acceptor cfg σ) : Prop where
  bounded : a.Bounded limit
  lost : limit ≤ a.lost
  pending : a.pending ≠ none → limit = cfg.maxClients

theorem lost_thread (a : Acceptor cfg σ) (e : ThreadEvent (Fin cfg.maxClients) σ) :
    a.lost ≤ (List.finRange cfg.maxClients).countP
      ((Threads.leaks _ _ _).note a.threads e a.hits) := by
  refine List.countP_mono_left fun k _ hhit ↦ ?_
  simp [Threads.leaks, hhit]

theorem Closed.step {limit : ℕ}
    (hlimit : limit ≤ cfg.maxClients) (ha : a.Closed limit) (h : a.step e = some a') :
    a'.Closed limit ∧ ∃ refused, a'.log = a.log ++ refused ∧
      ∀ r ∈ refused, r.2 = rejectServerUnavailable := by
  obtain ⟨hbounded, hlost, hpending⟩ := ha
  have hbounded' := hbounded.step hlimit h
  have hused := hbounded.used_eq
  have hle := used_le a
  cases step_cases h with
  | limited fd hnone hover => exact ⟨⟨hbounded', hlost, hpending⟩, [_], rfl, by simp⟩
  | checked fd hnone hunder =>
      refine ⟨⟨hbounded', hlost, fun _ ↦ ?_⟩, [], (List.append_nil _).symm, by simp⟩
      by_contra hne
      have hroom := hunder (hbounded.limitEq ▸ lt_of_le_of_ne hlimit hne)
      rw [hbounded.limitEq] at hroom
      omega
  | full fd spawnOk hfd hnone =>
      exact ⟨⟨hbounded', hlost, fun hp ↦ absurd rfl hp⟩, [_], rfl, by simp⟩
  | spawnFailed fd k hfd hslot =>
      exact ⟨⟨hbounded', hlost, fun hp ↦ absurd rfl hp⟩, [_], rfl, by simp⟩
  | served fd k t hfd hslot =>
      have heq := hpending (by simp [hfd])
      have hfull : a.freeSlot = none := freeSlot_eq_none.mpr (by omega)
      rw [hfull] at hslot
      cases hslot
  | thread e t halloc =>
      exact ⟨⟨hbounded', hlost.trans (lost_thread a e), hpending⟩, [], (List.append_nil _).symm,
        by simp⟩

theorem Closed.run {limit : ℕ}
    (hlimit : limit ≤ cfg.maxClients) (ha : a.Closed limit) {es : List (AcceptEvent cfg σ)}
    (hrun : a.run es = some a') : ∃ refused, a'.log = a.log ++ refused ∧
      ∀ r ∈ refused, r.2 = rejectServerUnavailable := by
  induction es generalizing a with
  | nil =>
      cases hrun
      exact ⟨[], (List.append_nil _).symm, by simp⟩
  | cons e es ih =>
      obtain ⟨a₁, hstep, hrest⟩ := Option.bind_eq_some_iff.mp hrun
      obtain ⟨ha₁, refused, hlog, hrefused⟩ := ha.step hlimit hstep
      obtain ⟨refused', hlog', hrefused'⟩ := ih ha₁ hrest
      refine ⟨refused ++ refused', by rw [hlog', hlog, List.append_assoc], fun r hr ↦ ?_⟩
      rcases List.mem_append.mp hr with hr | hr
      · exact hrefused r hr
      · exact hrefused' r hr

/-- In every run no more connections than the limit have a thread.  A descriptor is refused
exactly if the connections and the lost slots reach the limit when it is tested or fill the
pool when a slot is looked for, or if no thread can be started; and once the lost slots
alone reach the limit every later one is refused. -/
theorem admission {standard : ℕ} {calls : List ℕ}
    (h : Reach (configuredLimit cfg standard calls) a) :
    a.Admits (configuredLimit cfg standard calls) ∧
      (configuredLimit cfg standard calls ≤ a.lost → a.pending = none →
        ∀ es a', a.run es = some a' → ∃ refused, a'.log = a.log ++ refused ∧
          ∀ r ∈ refused, r.2 = rejectServerUnavailable) := by
  have hlimit : configuredLimit cfg standard calls ≤ cfg.maxClients := configuredLimit_le _ _
  have hbounded := bounded_of_reach hlimit h
  refine ⟨hbounded.admits, fun hlost hpending es a' hrun ↦ ?_⟩
  exact Closed.run hlimit ⟨hbounded, hlost, fun hp ↦ absurd hpending hp⟩ hrun

end Acceptor

namespace Sample

/-- One connection is served and a second one is refused. -/
def twoAccepted : List (AcceptEvent Config.posix Unit) :=
  [.accept 5, .alloc true, .accept 6]

end Sample

/-- A limit of one connection. -/
theorem admission_one : ∃ a : Acceptor Config.posix Unit,
    a.Admits 1 ∧ a.running = 1 ∧
      a.log.map Prod.snd = [.served default, .refused (some [0x20, 0x02, 0x00, 0x03])] := by
  have hrun : ((Acceptor.init Config.posix Unit 1).run Sample.twoAccepted).isSome = true := by
    decide
  obtain ⟨a, hend⟩ := Option.isSome_iff_exists.mp hrun
  have hreach : Acceptor.Reach (configuredLimit Config.posix 8 [1]) a :=
    Acceptor.Reach.init.run hend
  have hfacts : ((Acceptor.init Config.posix Unit 1).run Sample.twoAccepted).map (fun a ↦
      (a.running, a.log.map Prod.snd)) =
        some (1, [.served default, .refused (some [0x20, 0x02, 0x00, 0x03])]) := by decide
  rw [hend] at hfacts
  obtain ⟨hrunning, hlog⟩ := Prod.mk.inj (Option.some.inj hfacts)
  exact ⟨a, (Acceptor.admission hreach).1, hrunning, hlog⟩

end MqttBroker
