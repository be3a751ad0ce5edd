import MqttBroker.Client.Observed
import MqttBroker.Client.Receive

/-!
# When receiving fails

The loop of `client_thread_fn` tells a receive timeout from the end of the
connection by `errno`, which only `plat_recv` sets, and only when it returns -1.
A timeout ends the loop if `last_seen_ms` is older than the keepalive time.
-/

namespace MqttBroker

variable {cfg : Config} {κ σ : Type}

def EAGAIN : ℤ := 11
def ETIMEDOUT : ℤ := 110

/-- Why `recv_packet` returned -1. -/
inductive RecvFailure where
  /-- `plat_recv` returned -1 -/
  | os (errno : ℤ)
  /-- `plat_recv` returned 0 -/
  | closed
  | refused (e : HeaderError)

namespace RecvFailure

/-- `errno` afterwards. -/
def errnoAfter (errno : ℤ) : RecvFailure → ℤ
  | os e => e
  | closed | refused _ => errno

/-- The end of the stream, or a fixed header that `recv_packet` refuses. -/
def Quiet : RecvFailure → Prop
  | os _ => False
  | closed | refused _ => True

theorem Quiet.errnoAfter {f : RecvFailure} (h : f.Quiet) (errno : ℤ) :
    f.errnoAfter errno = errno := by
  cases f with
  | os e => exact h.elim
  | closed | refused => rfl

end RecvFailure

/-- `errno == EAGAIN || errno == ETIMEDOUT` -/
def timedOut (errno : ℤ) : Bool := errno = EAGAIN || errno = ETIMEDOUT

namespace Client

/-- `c->keepalive * 1500` -/
def keepaliveMs (c : Client) : ℤ := c.keepalive.toNat * 1500

/-- The keepalive time has passed. -/
def keepaliveOver (c : Client) (now : ℤ) : Bool :=
  0 < c.keepalive && c.keepaliveMs < now - c.lastSeenMs

/-- `client_inflight_retry` has something to send. -/
def retryDue (c : Client) (now : ℤ) : Prop :=
  ∃ i, (c.inflight i).inUse = true ∧ CLIENT_INFLIGHT_RETRY_MS ≤ now - (c.inflight i).sentAtMs

theorem inflightRetry_sent (c : Client) (now : ℤ) (sendOk : Bool) :
    (c.inflightRetry now sendOk).2 = [] ↔ ¬ c.retryDue now := by
  simp only [inflightRetry, retryDue, List.filterMap_eq_nil_iff, List.mem_finRange, true_imp_iff,
    not_exists, not_and, not_le]
  refine forall_congr' fun i ↦ ?_
  unfold retryEntry
  split_ifs with hskip
  · refine iff_of_true rfl fun huse ↦ ?_
    simpa [huse] using hskip
  · obtain ⟨huse, hold⟩ := not_or.mp hskip
    exact iff_of_false (by simp) fun h ↦ hold (h (by simpa using huse))

/-- Retransmitting closes the connection if and only if a frame is due and cannot be
sent. -/
theorem inflightRetry_state (c : Client) (now : ℤ) (sendOk : Bool) :
    (c.inflightRetry now sendOk).1.state = .connected ↔
      c.state = .connected ∧ (c.retryDue now → 0 ≤ c.fd ∧ sendOk = true) := by
  have hsent := c.inflightRetry_sent now sendOk
  unfold inflightRetry at hsent ⊢
  dsimp only at hsent ⊢
  split_ifs with hnil
  · exact ⟨fun h ↦ ⟨h, fun hdue ↦ absurd hdue (hsent.mp hnil)⟩, And.left⟩
  · have hdue : c.retryDue now := not_not.mp fun h ↦ hnil (hsent.mpr h)
    unfold clientSend
    split_ifs with hgo
    · exact ⟨fun h ↦ ⟨h, fun _ ↦ hgo⟩, And.left⟩
    · exact iff_of_false (by simp) fun h ↦ hgo (h.2 hdue)

end Client

namespace Threads

/-- The step of a thread whose `recv_packet` has failed; `errno` is its value
before. -/
def failureEvent (s : Threads cfg κ σ) (k : κ) (env : Env κ) (errno : ℤ) (f : RecvFailure) :
    ThreadEvent κ σ :=
  match s.conn k with
  | .waiting => .leave k
  | _ =>
      if timedOut (f.errnoAfter errno) then
        if (s.broker.clients k).keepaliveOver env.now then .leave k else .tick k env
      else .leave k

end Threads

/-! ## The keepalive time -/

/-- `last_seen_ms` is the time of the last packet after the CONNECT, and 0 before. -/
structure HeardInv (c : Client) (pc : ConnPc cfg) (l : ConnLog) : Prop where
  seen : c.lastSeenMs = l.packetsAt.headD 0
  fresh : pc = .waiting → l.packetsAt = []
  sorted : l.heard.Pairwise (· ≥ ·)

namespace HeardInv

variable {c c' : Client} {pc pc' : ConnPc cfg} {l : ConnLog}

theorem goOn (h : HeardInv c pc l) (hc : c'.lastSeenMs = c.lastSeenMs) (hpc : pc' ≠ .waiting) :
    HeardInv c' pc' l := ⟨hc.trans h.seen, fun hw ↦ absurd hw hpc, h.sorted⟩

end HeardInv

theorem connStep_lastSeen [DecidableEq κ] {env : Env κ} {b : Broker cfg κ} {me : κ}
    {pc pc' : ConnPc cfg} {h : Handled cfg κ} (hnext : connStep env b me pc = some (h, pc')) :
    (h.broker.clients me).lastSeenMs = (b.clients me).lastSeenMs := by
  rcases connStep_stays hnext with hstays | ⟨conn, -, hc⟩ | ⟨conn, -, hc⟩ | ⟨-, hc⟩
  · exact hstays.lastSeenMs
  · rw [hc]; rfl
  · rw [hc]; rfl
  · rw [hc]

namespace Threads

variable [DecidableEq κ] [DecidableEq σ] {s s' : Threads cfg κ σ} {e : ThreadEvent κ σ}

/-- The clock that is read when a packet has been received never goes back. -/
def ClockRuns (_ : Threads cfg κ σ) (logs : κ → ConnLog) (e : ThreadEvent κ σ) : Prop :=
  ∀ k env pkt, e = .connect k env pkt ∨ e = .packet k env pkt → ∀ t ∈ (logs k).heard, t ≤ env.now

/-- The step lemma, for the thread of slot `k`. -/
theorem heardInv_own (h : s.step e = some s') {k : κ} (hk : e.slot = some k) {logs : κ → ConnLog}
    (hclock : s.ClockRuns logs e) (hinv : HeardInv (s.broker.clients k) (s.conn k) (logs k)) :
    HeardInv (s'.broker.clients k) (s'.conn k) ((logs k).note s k e) := by
  have hconnect : ∀ {env : Env κ} {pkt : MqttPacket} {c : Client} {pc : ConnPc cfg},
      s.conn k = .waiting → c.lastSeenMs = (s.broker.clients k).lastSeenMs → pc ≠ .waiting →
      HeardInv c pc ((logs k).note s k (.connect k env pkt)) := by
    intro env pkt c pc hpc hc hpc'
    refine ⟨hc.trans hinv.seen, fun hw ↦ absurd hw hpc', ?_⟩
    simp [ConnLog.heard, ConnLog.note, hinv.fresh hpc]
  have hown := own_cases h hk
  generalize s'.broker.clients k = c, s'.conn k = pc at hown ⊢
  cases hown with
  | alloc fd => exact ⟨rfl, fun _ ↦ rfl, .nil⟩
  | notConnect env pkt hpc | connect env pkt conn hpc => exact hconnect hpc rfl (by simp)
  | reject env pkt code c hpc _ _ hstays => exact hconnect hpc hstays.lastSeenMs (by simp)
  | leave => exact hinv.goOn rfl (by simp)
  | packet env pkt c pc hpc hstays hpc' =>
      refine ⟨hstays.lastSeenMs, fun hw ↦ ?_, ?_⟩
      · rcases hpc' with rfl | rfl | ⟨pub, ack, rfl⟩ <;> cases hw
      · exact List.pairwise_cons.mpr ⟨hclock k env pkt (Or.inr rfl), hinv.sorted⟩
  | tick env c hpc hstays => exact hinv.goOn hstays.lastSeenMs (by simp)
  | next env h' pc hnext =>
      exact hinv.goOn (connStep_lastSeen hnext) (connStep_pc_cases hnext).1
  | publish env pub ack c hpc hstays =>
      have hnote : (logs k).note s k (.publish k env) = logs k := by simp [ConnLog.note, hpc]
      rw [hnote]
      exact hinv.goOn hstays.lastSeenMs (by simp)
  | will env c hpc hwill hstays =>
      simp only [ConnLog.note, hpc]
      exact ⟨hstays.lastSeenMs.trans hinv.seen, fun hw ↦ by simp at hw, hinv.sorted⟩

theorem heardInv_observed [Inhabited κ] {logs : κ → ConnLog} (h : Observed ClockRuns s logs)
    (k : κ) : HeardInv (s.broker.clients k) (s.conn k) (logs k) := by
  refine Observer.Reach.invariant (I := fun (s : Threads cfg κ σ) (logs : κ → ConnLog) ↦
    ∀ k, HeardInv (s.broker.clients k) (s.conn k) (logs k)) (fun k ↦ ?_) ?_ h k
  · exact ⟨rfl, fun _ ↦ rfl, .nil⟩
  intro s logs e s' _ hs hclock hstep k
  by_cases hk : e.slot = some k
  · rw [note_self hk]
    exact heardInv_own hstep hk hclock (hs k)
  · obtain ⟨hclient, hconn, -⟩ := step_untouched hstep hk
    rw [note_of_ne hk, hconn]
    exact ⟨hclient.lastSeenMs.trans (hs k).seen, (hs k).fresh, (hs k).sorted⟩

/-- A failed `recv_packet` ends the loop through the keepalive branch. -/
def LeavesByKeepalive (s : Threads cfg κ σ) (k : κ) (env : Env κ) (errno : ℤ) (f : RecvFailure) :
    Prop :=
  s.conn k = .recv ∧ timedOut (f.errnoAfter errno) = true ∧
    (s.broker.clients k).keepaliveOver env.now = true

/-- The keepalive branch is taken after the keepalive time without a packet, CONNECT
included, if and only if a packet has followed the CONNECT, or the uptime or the age
of the CONNECT decides the test as well. -/
theorem keepalive_exit_iff [Inhabited κ] {logs : κ → ConnLog} (h : Observed ClockRuns s logs)
    {k : κ} (hpc : s.conn k = .recv) (env : Env κ) (errno : ℤ) (f : RecvFailure) :
    (s.LeavesByKeepalive k env errno f →
        ∀ t ∈ (logs k).heard, (s.broker.clients k).keepaliveMs < env.now - t) ↔
      (timedOut (f.errnoAfter errno) = true → 0 < (s.broker.clients k).keepalive →
        (logs k).packetsAt = [] →
        env.now ≤ (s.broker.clients k).keepaliveMs ∨
          ∀ t, (logs k).connectAt = some t → (s.broker.clients k).keepaliveMs < env.now - t) := by
  obtain ⟨hseen, -, hsorted⟩ := heardInv_observed h k
  simp only [LeavesByKeepalive, hpc, true_and, Client.keepaliveOver, Bool.and_eq_true,
    decide_eq_true_eq, and_imp]
  refine forall_congr' fun _ ↦ forall_congr' fun _ ↦ ?_
  unfold ConnLog.heard at hsorted ⊢
  cases hpackets : (logs k).packetsAt with
  | nil =>
      rw [hpackets] at hseen
      rw [hseen]
      simp only [List.headD_nil, sub_zero, List.nil_append, Option.mem_toList, true_imp_iff]
      refine ⟨fun hold ↦ ?_, fun hor hover ↦ ?_⟩
      · exact (le_or_gt env.now _).imp id hold
      · exact hor.resolve_left (not_le.mpr hover)
  | cons t₀ rest =>
      rw [hpackets] at hseen hsorted
      refine iff_of_true (fun hover t ht ↦ ?_) (by simp)
      have hle : t ≤ t₀ := by
        rcases List.mem_cons.mp ht with rfl | ht
        · exact le_rfl
        · exact (List.pairwise_cons.mp hsorted).1 t ht
      rw [hseen, List.headD_cons] at hover
      omega

end Threads

namespace Sample

/-- After the machine has been up for 1000 s. -/
def envLate : Env ℕ := { env with now := 1000000 }

/-- The first tick, 5 s later. -/
def envTick : Env ℕ := { env with now := 1005000 }

/-- A client with a keepalive time of 60 s is accepted and sends nothing more. -/
def silentRun : List (ThreadEvent ℕ Unit) := List.replicate 6 (.next 0 envLate)

/-- The end of the run, after a CONNECT in the first slot. -/
def silentEnd : Option (Threads Config.posix ℕ Unit × (ℕ → ConnLog)) :=
  let sys := Threads.observed Config.posix ℕ Unit
  (Observer.run sys (Threads.init Config.posix ℕ Unit, fun _ ↦ {})
    [.alloc 0 5, .connect 0 envLate connectPkt]).bind fun r ↦ Observer.run sys r silentRun

theorem silentEnd_observed : ∃ s logs, silentEnd = some (s, logs) ∧
    Threads.Observed Threads.ClockRuns s logs := by
  have hstart : Threads.Observed Threads.ClockRuns (Threads.init Config.posix ℕ Unit)
    fun _ ↦ {} := .start
  have halloc := hstart.step (e := .alloc 0 5) (by rintro k env pkt (h | h) <;> cases h) rfl
  have hconnect := halloc.step (e := .connect 0 envLate connectPkt)
    (by rintro k env pkt (h | h) <;> cases h; simp [Threads.observed, ThreadEvent.slot,
      ConnLog.note, ConnLog.heard]) rfl
  have hrun : (silentEnd).isSome = true := by decide
  refine ⟨_, _, (Option.some_get hrun).symm, ?_⟩
  have hquiet : ∀ (s : Threads Config.posix ℕ Unit) (logs : ℕ → ConnLog), ∀ e ∈ silentRun,
      s.ClockRuns logs e := by
    intro s logs e he k env pkt h
    obtain rfl := List.eq_of_mem_replicate he
    rcases h with h | h <;> cases h
  exact hconnect.run hquiet (Option.some_get hrun).symm

theorem silentEnd_recv {s : Threads Config.posix ℕ Unit} {logs : ℕ → ConnLog}
    (h : silentEnd = some (s, logs)) : s.conn 0 = .recv ∧ (s.broker.clients 0).keepalive = 60 ∧
      (s.broker.clients 0).lastSeenMs = 0 ∧ (logs 0).packetsAt = [] ∧
      (logs 0).connectAt = some 1000000 := by
  have hend : silentEnd.map (fun r ↦ (r.1.conn 0, (r.1.broker.clients 0).keepalive,
      (r.1.broker.clients 0).lastSeenMs, (r.2 0).packetsAt, (r.2 0).connectAt)) =
        some (.recv, 60, 0, [], some 1000000) := rfl
  rw [h] at hend
  simpa using hend

end Sample

/-- The statement at a client whose keepalive time has passed. -/
theorem keepalive_exit_iff_silent : ∃ (s : Threads Config.posix ℕ Unit) (logs : ℕ → ConnLog),
    Threads.Observed Threads.ClockRuns s logs ∧ s.conn 0 = .recv ∧
      (s.LeavesByKeepalive 0 { Sample.env with now := 1095000 } 0 (.os EAGAIN) →
        ∀ t ∈ (logs 0).heard, (s.broker.clients 0).keepaliveMs < 1095000 - t) := by
  obtain ⟨s, logs, hend, hreach⟩ := Sample.silentEnd_observed
  obtain ⟨hpc, hkeep, -, -, hconnect⟩ := Sample.silentEnd_recv hend
  refine ⟨s, logs, hreach, hpc, (Threads.keepalive_exit_iff hreach hpc _ _ _).mpr fun _ _ _ ↦
    Or.inr fun t ht ↦ ?_⟩
  rw [hconnect, Option.some.injEq] at ht
  simp [Client.keepaliveMs, hkeep, ← ht]

/-- Five seconds after its CONNECT a client with a keepalive time of 60 s is
disconnected for being silent. -/
theorem keepalive_exit_after_connect :
    ∃ (s : Threads Config.posix ℕ Unit) (logs : ℕ → ConnLog),
      Threads.Observed Threads.ClockRuns s logs ∧
        s.LeavesByKeepalive 0 Sample.envTick 0 (.os EAGAIN) ∧
        (logs 0).heard = [1000000] ∧ (s.broker.clients 0).keepaliveMs = 90000 ∧
        Sample.envTick.now = 1005000 := by
  obtain ⟨s, logs, hend, hreach⟩ := Sample.silentEnd_observed
  obtain ⟨hpc, hkeep, hseen, hpackets, hconnect⟩ := Sample.silentEnd_recv hend
  refine ⟨s, logs, hreach, ⟨hpc, rfl, ?_⟩, ?_, ?_, rfl⟩
  · simp [Client.keepaliveOver, Client.keepaliveMs, hkeep, hseen, Sample.envTick]
  · simp [ConnLog.heard, hpackets, hconnect]
  · simp [Client.keepaliveMs, hkeep]

/-! ## Leaving the loop -/

namespace Threads

variable [DecidableEq κ] [DecidableEq σ] {s s' t : Threads cfg κ σ} {e : ThreadEvent κ σ} {k : κ}

/-- The thread of slot `k` has left its loop, up to the loop's test: its next step is
in `client_free`, and it never comes back to `recv_packet`. -/
structure LeavesLoop (s : Threads cfg κ σ) (k : κ) : Prop where
  next : ∀ env, ∃ t, s.step (.next k env) = some t ∧ (t.conn k).Freeing
  never : ∀ es t, s.run es = some t → t.gen k = s.gen k → t.conn k = .loop ∨ (t.conn k).Freeing

/-- The thread is in `client_free`, or about to call it. -/
def Doomed (s : Threads cfg κ σ) (k : κ) : Prop :=
  (s.conn k).Freeing ∨ s.conn k = .loop ∧ (s.broker.clients k).state ≠ .connected

theorem step_gen_le (h : s.step e = some s') (k : κ) : s.gen k ≤ s'.gen k := by
  by_cases hk : e.slot = some k
  · cases step_cases h with
    | alloc j fd =>
        cases hk
        simp only [Function.update_self, Nat.le_add_right]
    | publish j env pub ack s' hpc hb | will j env s' hpc hwill hb =>
        rw [(begin_frame hb).2]
        exact le_rfl
    | foreign => cases hk
    | _ => exact le_rfl
  · exact (step_untouched h hk).gen.ge

/-- Until the slot is allocated anew, a thread in `client_free` stays there. -/
theorem Doomed.step [Inhabited κ] (hs : s.Doomed k) (h : s.step e = some s')
    (hgen : s'.gen k = s.gen k) : s'.Doomed k := by
  have halloc : ∀ fd, e ≠ .alloc k fd := by
    rintro fd rfl
    cases step_cases h with
    | alloc => simp at hgen
  have hdown : (s.broker.clients k).state ≠ .connected →
      (s'.broker.clients k).state ≠ .connected := by
    intro hne
    rcases step_state h halloc with hsame | hdown | ⟨hfree, -⟩
    · rwa [hsame]
    · simp [hdown]
    · simp [hfree]
  by_cases hk : e.slot = some k
  · have hpc : ∀ pc : ConnPc cfg, s.conn k = pc → ¬ pc.Freeing → pc ≠ .loop → False := by
      rintro pc rfl hfree hloop
      exact hs.elim hfree fun hs ↦ hloop hs.1
    cases step_cases h with
    | alloc j fd => cases hk; exact absurd rfl (halloc fd)
    | notConnect j env pkt hrecv | connect j env pkt conn hrecv | reject j env pkt code hrecv
    | late j env pkt hrecv | publishPacket j env pkt b pub ack hrecv
    | packet j env pkt h' hrecv | tick j env hrecv | publish j env pub ack s' hrecv =>
        cases hk
        exact (hpc _ hrecv id (by simp)).elim
    | leave j hrecv =>
        cases hk
        rcases hrecv with hrecv | hrecv <;> exact (hpc _ hrecv id (by simp)).elim
    | next j env h' pc hjob hnext =>
        cases hk
        refine Or.inl ?_
        rw [goTo_conn]
        rcases hs with hs | ⟨hloop, hne⟩
        · exact (connStep_pc_cases hnext).2.1 hs
        · exact (connStep_pc_cases hnext).2.2 hloop hne
    | will j env s' _ _ hb =>
        cases hk
        refine Or.inl ?_
        rw [(begin_frame hb).1, goTo_conn]
        trivial
    | foreign | send | offline => cases hk
  · rw [Doomed, (step_untouched h hk).conn]
    exact hs.imp id fun hs ↦ ⟨hs.1, hdown hs.2⟩

theorem Doomed.run [Inhabited κ] {es : List (ThreadEvent κ σ)} (hs : s.Doomed k)
    (h : s.run es = some t) (hgen : t.gen k = s.gen k) : t.Doomed k := by
  have hmono : ∀ (es : List (ThreadEvent κ σ)) {s : Threads cfg κ σ}, s.run es = some t →
      s.gen k ≤ t.gen k := by
    intro es
    induction es with
    | nil =>
        intro s h
        cases h
        exact le_rfl
    | cons e es ih =>
        intro s h
        obtain ⟨s₁, hstep, hrest⟩ := Option.bind_eq_some_iff.mp h
        exact (step_gen_le hstep k).trans (ih hrest)
  induction es generalizing s with
  | nil =>
      cases h
      exact hs
  | cons e es ih =>
      obtain ⟨s₁, hstep, hrest⟩ := Option.bind_eq_some_iff.mp h
      have hle := step_gen_le hstep k
      have hle' := hmono es hrest
      have hgen₁ : s₁.gen k = s.gen k := by omega
      exact ih (hs.step hstep hgen₁) hrest (hgen.trans hgen₁.symm)

omit [DecidableEq κ] [DecidableEq σ] in
/-- A thread that waits for a packet has no publish going on. -/
theorem Settled.no_job (hs : s.Settled) (hpc : s.conn k = .waiting ∨ s.conn k = .recv) :
    s.jobs (.inl k) = none := by
  by_contra hjob
  rcases hs.jobs k hjob with hconn | ⟨ack, hconn⟩ <;> rcases hpc with hpc | hpc <;>
    simp [hpc] at hconn

theorem Doomed.leavesLoop [Inhabited κ] (hs : s.Doomed k)
    (hpc : s.conn k = .closeFd ∨ s.conn k = .loop) (hjob : s.jobs (.inl k) = none) : s.LeavesLoop k where
  next env := by
    rcases hpc with hpc | hpc
    · refine ⟨s.goTo k (s.broker.updateClient k (·.closeFd)) .will, ?_, ?_⟩
      · simp [Threads.step, hjob, hpc, connStep]
      · rw [goTo_conn]
        trivial
    · have hdown : (s.broker.clients k).state ≠ .connected := by
        rcases hs with hs | ⟨-, hdown⟩
        · rw [hpc] at hs
          exact hs.elim
        · exact hdown
      refine ⟨s.goTo k s.broker .closeFd, ?_, ?_⟩
      · simp [Threads.step, hjob, hpc, connStep, hdown]
      · rw [goTo_conn]
        trivial
  never es t h hgen := (hs.run h hgen).elim Or.inr fun hs ↦ Or.inl hs.1

/-- A connection that is up and at the loop's test goes back to `recv_packet`. -/
theorem not_leavesLoop (hpc : s.conn k = .loop) (hup : (s.broker.clients k).state = .connected)
    (hjob : s.jobs (.inl k) = none) (env : Env κ) : ¬ s.LeavesLoop k := by
  intro hleaves
  obtain ⟨t, hstep, hfree⟩ := hleaves.next env
  simp only [step, hjob, hpc, connStep, hup, if_true, Option.map_some] at hstep
  cases hstep
  rw [goTo_conn] at hfree
  exact hfree

/-- The end of the stream and a refused fixed header end the loop of
`client_thread_fn` if and only if they are not taken for a timeout, because of the
`errno` of an earlier call, or something else ends the loop at the same time: the
keepalive time, the loss of the client id, or a retransmission that fails. -/
theorem leavesLoop_iff [Inhabited κ] (h : ReachBy (fun _ _ ↦ True) s)
    (hpc : s.conn k = .waiting ∨ s.conn k = .recv) {f : RecvFailure} (hf : f.Quiet) (env : Env κ)
    (errno : ℤ) : ∃ s', s.step (s.failureEvent k env errno f) = some s' ∧
      (s'.LeavesLoop k ↔ s.conn k = .waiting ∨ timedOut errno = false ∨
        (s.broker.clients k).keepaliveOver env.now = true ∨
        (s.broker.clients k).state ≠ .connected ∨
        (s.broker.clients k).retryDue env.now ∧
          ¬ (0 ≤ (s.broker.clients k).fd ∧ env.sendOk k = true)) := by
  have hjob := (settled_of_reach h).no_job hpc
  have hleave : s.step (.leave k) = some (s.goTo k s.broker .closeFd) ∧
      (s.goTo k s.broker .closeFd).LeavesLoop k := by
    refine ⟨by rcases hpc with hpc | hpc <;> simp only [step, hpc], ?_⟩
    have hdoomed : (s.goTo k s.broker .closeFd).Doomed k := Or.inl (by rw [goTo_conn]; trivial)
    exact hdoomed.leavesLoop (Or.inl (goTo_conn _ _ _ _)) hjob
  rcases hpc with hpc | hpc
  · refine ⟨_, by simpa only [failureEvent, hpc] using hleave.1, ?_⟩
    exact iff_of_true hleave.2 (Or.inl hpc)
  simp only [failureEvent, hpc, hf.errnoAfter, reduceCtorEq, false_or]
  cases htime : timedOut errno with
  | false => exact ⟨_, by simpa using hleave.1, iff_of_true hleave.2 (Or.inl rfl)⟩
  | true =>
      cases hover : (s.broker.clients k).keepaliveOver env.now with
      | true => exact ⟨_, by simpa using hleave.1, iff_of_true hleave.2 (Or.inr (Or.inl rfl))⟩
      | false =>
          refine ⟨_, by simp only [if_true, Bool.false_eq_true, if_false, step, hpc]; rfl, ?_⟩
          simp only [Bool.true_eq_false, Bool.false_eq_true, false_or]
          have hloop := goTo_conn s k (s.broker.updateClient k fun c ↦
            (c.inflightRetry env.now (env.sendOk k)).1) .loop
          have hstate : ((s.goTo k (s.broker.updateClient k fun c ↦
              (c.inflightRetry env.now (env.sendOk k)).1) .loop).broker.clients k).state =
                .connected ↔ (s.broker.clients k).state = .connected ∧
                  ((s.broker.clients k).retryDue env.now →
                    0 ≤ (s.broker.clients k).fd ∧ env.sendOk k = true) := by
            rw [← Client.inflightRetry_state, goTo_broker, Broker.updateClient]
            simp only [Function.update_self]
          refine ⟨fun hleaves ↦ ?_, fun hdown ↦ ?_⟩
          · by_contra hup
            refine not_leavesLoop hloop (hstate.mpr ?_) hjob env hleaves
            tauto
          · refine Doomed.leavesLoop (Or.inr ⟨hloop, fun hup ↦ ?_⟩) (Or.inr hloop) hjob
            have := hstate.mp hup
            tauto

end Threads

namespace Sample

/-- A client is accepted, and no packet comes for one tick. -/
def idleRun : List (ThreadEvent ℕ Unit) :=
  [.alloc 0 5, .connect 0 env connectPkt] ++ List.replicate 6 (.next 0 env) ++
    [.tick 0 env, .next 0 env]

def idleEnd : Option (Threads Config.posix ℕ Unit) := (Threads.init _ _ _).run idleRun

theorem idleEnd_reach : ∃ s, idleEnd = some s ∧ Threads.ReachBy (fun _ _ ↦ True) s := by
  have hrun : idleEnd.isSome = true := by decide
  have hend := (Option.some_get hrun).symm
  exact ⟨_, hend, Threads.ReachBy.init.run (fun _ _ _ ↦ trivial) hend⟩

theorem idleEnd_recv {s : Threads Config.posix ℕ Unit} (h : idleEnd = some s) :
    s.conn 0 = .recv ∧ (s.broker.clients 0).state = .connected ∧
      (s.broker.clients 0).keepaliveOver env.now = false ∧
      ∀ i, ((s.broker.clients 0).inflight i).inUse = false := by
  have hend : idleEnd.map (fun s ↦ (s.conn 0, (s.broker.clients 0).state,
      (s.broker.clients 0).keepaliveOver env.now,
      (List.finRange CLIENT_INFLIGHT_MAX).all fun i ↦ !((s.broker.clients 0).inflight i).inUse)) =
        some (.recv, .connected, false, true) := rfl
  rw [h] at hend
  simpa using hend

end Sample

/-- The statement at the end of the stream after no timeout. -/
theorem leavesLoop_iff_closed : ∃ s s' : Threads Config.posix ℕ Unit,
    Threads.ReachBy (fun _ _ ↦ True) s ∧ s.conn 0 = .recv ∧
      s.step (s.failureEvent 0 Sample.env 0 .closed) = some s' ∧ s'.LeavesLoop 0 := by
  obtain ⟨s, hend, hreach⟩ := Sample.idleEnd_reach
  have hpc := (Sample.idleEnd_recv hend).1
  obtain ⟨s', hstep, hiff⟩ :=
    Threads.leavesLoop_iff hreach (Or.inr hpc) (f := .closed) trivial Sample.env 0
  exact ⟨s, s', hreach, hpc, hstep, hiff.mpr (Or.inr (Or.inl rfl))⟩

/-- The end of the stream after a receive timeout: `errno` still holds `EAGAIN`,
and the thread goes back to `recv_packet`. -/
theorem closed_after_timeout : ∃ s s' : Threads Config.posix ℕ Unit,
    Threads.ReachBy (fun _ _ ↦ True) s ∧ s.conn 0 = .recv ∧
      s.step (s.failureEvent 0 Sample.env EAGAIN .closed) = some s' ∧ ¬ s'.LeavesLoop 0 := by
  obtain ⟨s, hend, hreach⟩ := Sample.idleEnd_reach
  obtain ⟨hpc, hstate, hover, hfree⟩ := Sample.idleEnd_recv hend
  have hjob := (Threads.settled_of_reach hreach).no_job (Or.inr hpc)
  refine ⟨s, s.goTo 0 (s.broker.updateClient 0 fun c ↦
    (c.inflightRetry Sample.env.now (Sample.env.sendOk 0)).1) .loop, hreach, hpc, ?_,
    Threads.not_leavesLoop (Threads.goTo_conn _ _ _ _) ?_ hjob Sample.env⟩
  · have htick : s.failureEvent 0 Sample.env EAGAIN .closed = .tick 0 Sample.env := by
      have htime : timedOut (RecvFailure.closed.errnoAfter EAGAIN) = true := by decide
      simp [Threads.failureEvent, hpc, hover, htime]
    rw [htick]
    simp only [Threads.step, hpc]
  · have hself : ∀ f : Client → Client, (s.broker.updateClient 0 f).clients 0 =
        f (s.broker.clients 0) := fun _ ↦ by simp [Broker.updateClient]
    rw [Threads.goTo_broker, hself, Client.inflightRetry_state]
    refine ⟨hstate, ?_⟩
    rintro ⟨i, huse, -⟩
    rw [hfree i] at huse
    cases huse

end MqttBroker
