import MqttBroker.Client.Inbound
import MqttBroker.Client.Reuse

/-!
# What a connection is told first

Whatever the other threads publish, the first frame that a connection is sent is
its CONNACK, and one that is refused is sent nothing else.  Frames that a publish
collected for an earlier connection of the slot are not counted: they are the
ones that can come before.
-/

namespace MqttBroker

variable {cfg : Config} {κ σ : Type}

/-! ## Frames for one connection -/

/-- A CONNACK that accepts comes first. -/
def Welcomed (l : List Bytes) : Prop :=
  ∃ present frame rest, packetBuildConnack present Connack.accepted 4 = some frame ∧
    l = frame :: rest

/-- One CONNACK that refuses, and nothing else. -/
def TurnedAway (l : List Bytes) : Prop :=
  ∃ code frame, code ≠ Connack.accepted ∧ packetBuildConnack 0 code 4 = some frame ∧ l = [frame]

theorem Welcomed.append {l : List Bytes} (h : Welcomed l) (l' : List Bytes) : Welcomed (l ++ l') := by
  obtain ⟨present, frame, rest, hbuild, rfl⟩ := h
  exact ⟨present, frame, rest ++ l', hbuild, rfl⟩

theorem packetBuildConnack_code {present code : UInt8} {cap : ℕ} {frame : Bytes}
    (h : packetBuildConnack present code cap = some frame) : code = frame.getD 3 0 := by
  rcases ite_eq_iff.mp h with ⟨-, h⟩ | ⟨-, h⟩
  · cases h
  · cases h
    rfl

theorem not_welcomed_nil : ¬ Welcomed [] := by
  rintro ⟨_, _, _, -, h⟩
  cases h

theorem TurnedAway.not_welcomed {l : List Bytes} (h : TurnedAway l) : ¬ Welcomed l := by
  obtain ⟨code, frame, hcode, hframe, rfl⟩ := h
  rintro ⟨present, frame', rest, hframe', heq⟩
  obtain ⟨rfl, -⟩ := List.cons.inj heq
  apply hcode
  rw [packetBuildConnack_code hframe, ← packetBuildConnack_code hframe']

/-! ## Places -/

namespace ConnPc

/-- The places of `client_thread_fn` up to the CONNACK. -/
def Early : ConnPc cfg → Prop
  | .waiting | .takeover _ | .assignId _ | .assignRest _ | .openSession _ | .connack _ _ => True
  | _ => False

theorem Early.bare {pc : ConnPc cfg} (h : pc.Early) : pc.Bare := by
  cases pc with
  | waiting | takeover | assignId | assignRest | openSession | connack => trivial
  | _ => exact h.elim

end ConnPc

section

variable [DecidableEq κ] {env : Env κ} {b : Broker cfg κ} {me : κ} {pc pc' : ConnPc cfg}
  {h : Handled cfg κ}

/-- Up to the CONNACK a thread sends nothing, and then the CONNACK. -/
theorem connStep_early (hnext : connStep env b me pc = some (h, pc')) (hpc : pc.Early) :
    h.broker.table = b.table ∧ (h.replies = [] ∧ pc'.Early ∨ Welcomed h.replies) := by
  cases pc with
  | takeover | assignId | assignRest | openSession =>
      cases hnext
      exact ⟨rfl, Or.inl ⟨rfl, trivial⟩⟩
  | connack sess present =>
      cases hnext
      refine ⟨Handled.table_reply env me _ ⟨b, []⟩, Or.inr ?_⟩
      rw [Handled.replies_reply]
      cases present with
      | false => exact ⟨0, _, [], rfl, rfl⟩
      | true => exact ⟨1, _, [], rfl, rfl⟩
  | waiting => cases hnext
  | _ => exact hpc.elim

/-- From its last test on a thread sends nothing and takes up no subscription. -/
theorem connStep_ending (hnext : connStep env b me pc = some (h, pc'))
    (hpc : pc.Freeing ∨ pc = .loop) :
    h.replies = [] ∧ (b.table.NoneOf me → h.broker.table.NoneOf me) := by
  cases pc with
  | loop | closeFd | clearWill | collect | lookup | saveSubs | release =>
      cases hnext
      exact ⟨rfl, id⟩
  | will =>
      simp only [connStep] at hnext
      split_ifs at hnext
      cases hnext
      exact ⟨rfl, id⟩
  | saveInflight s i =>
      simp only [connStep] at hnext
      split at hnext <;> cases hnext <;> exact ⟨rfl, id⟩
  | unsubscribe =>
      obtain ⟨r, hsection, heq⟩ := Option.map_eq_some_iff.mp hnext
      cases heq
      refine ⟨?_, (unsubscribeSection_removed hsection).1.noneOf⟩
      apply List.filterMap_eq_nil_iff.mpr
      intro o ho
      obtain ⟨x, -, rfl⟩ := List.mem_map.mp ho
      rfl
  | delete =>
      cases hnext
      refine ⟨rfl, fun hnone ↦ ?_⟩
      dsimp only
      split_ifs <;> exact hnone
  | idle => cases hnext
  | _ => simp [ConnPc.Freeing] at hpc

omit [DecidableEq κ] in
theorem connectCheck_error {pkt : MqttPacket} {code : UInt8}
    (hcheck : connectCheck cfg pkt = .error (some code)) : code ≠ Connack.accepted := by
  unfold connectCheck at hcheck
  split at hcheck
  · rename_i rc hparse
    split_ifs at hcheck <;> cases hcheck
    decide
  · split_ifs at hcheck <;> cases hcheck <;> decide

variable (env b me) in
/-- A CONNECT that fails a test is answered by at most one CONNACK. -/
theorem handleConnect_error {pkt : MqttPacket} {code : Option UInt8}
    (hcheck : connectCheck cfg pkt = .error code) :
    ((handleConnect env b me pkt).replies = [] ∨ TurnedAway (handleConnect env b me pkt).replies) ∧
      (handleConnect env b me pkt).broker.table = b.table ∧
        ((handleConnect env b me pkt).broker.clients me).state = .disconnecting := by
  have hreplies : (handleConnect env b me pkt).replies =
      (code.bind fun code ↦ packetBuildConnack 0 code 4).toList := by
    rw [handleConnect, hcheck]
    exact Handled.replies_reply env me _ ⟨b, []⟩
  refine ⟨?_, ?_, ?_⟩
  · rw [hreplies]
    cases hc : code with
    | none => exact Or.inl rfl
    | some code' =>
        cases hbuild : packetBuildConnack 0 code' 4 with
        | none => exact Or.inl (by simp [hbuild])
        | some frame =>
            refine Or.inr ⟨code', frame, ?_, hbuild, by simp [hbuild]⟩
            subst hc
            exact connectCheck_error hcheck
  · rw [handleConnect, hcheck]
    exact Handled.table_reply env me _ ⟨b, []⟩
  · rw [handleConnect, hcheck]
    simp [Broker.close, Broker.updateClient]

end

namespace Threads

section

variable [DecidableEq κ]

/-- The frames that connection `k` is sent at a step of its own thread. -/
def repliedAt (s : Threads cfg κ σ) (k : κ) : ThreadEvent κ σ → List Bytes
  | .connect _ env pkt =>
      if pkt.typeFlags ≠ PacketType.connect then []
      else
        match connectCheck cfg pkt with
        | .ok _ => []
        | .error _ => (handleConnect env s.broker k pkt).replies
  | .packet _ env pkt =>
      if pkt.headerOk ∧ (s.broker.clients k).state ≠ .connected then []
      else
        match publishBegin env s.broker k pkt with
        | some _ => []
        | none => ((dispatch env s.broker k pkt).map Handled.replies).getD []
  | .tick _ env => ((s.broker.clients k).inflightRetry env.now (env.sendOk k)).2
  | .next _ env => ((connStep env s.broker k (s.conn k)).map fun r ↦ r.1.replies).getD []
  | _ => []

/-- The frame that a publish sends to connection `k` at a step, if it collected it
for this connection. -/
def fannedAt (s : Threads cfg κ σ) (k : κ) (who : κ ⊕ σ) : List Bytes :=
  match s.jobs who with
  | some ⟨_, .send c frame :: _, _, gens⟩ => if c = k ∧ gens k = s.gen k then [frame] else []
  | _ => []

/-- What connection `k` is told at a step. -/
def told (s : Threads cfg κ σ) (k : κ) (e : ThreadEvent κ σ) : List Bytes :=
  match e with
  | .send who _ => s.fannedAt k who
  | e => if e.slot = some k then s.repliedAt k e else []

/-- The threads with what every connection has been told. -/
def conversed (cfg : Config) (κ σ : Type) [DecidableEq κ] [DecidableEq σ] :
    Observer.System (Threads cfg κ σ) (ThreadEvent κ σ) (κ → List Bytes) where
  step := step
  note s e n k :=
    match e with
    | .alloc j _ => if j = k then [] else n k
    | e => n k ++ s.told k e

end

variable [DecidableEq κ] [DecidableEq σ] {s s' : Threads cfg κ σ} {e : ThreadEvent κ σ}

/-! ## Steps of the threads -/

/-- What a job still has to do was there before or has just been collected. -/
theorem step_job (h : s.step e = some s') {who : κ ⊕ σ} {job : PublishJob cfg κ}
    (hjob : s'.jobs who = some job) :
    (∃ old, s.jobs who = some old ∧ job.ops ⊆ old.ops ∧ job.gens = old.gens) ∨
      job.gens = s.gen ∧ ∀ op ∈ job.ops, s.broker.table.Serves job.pub.topic op.client := by
  have hkept : s'.jobs who = s.jobs who →
      ∃ old, s.jobs who = some old ∧ job.ops ⊆ old.ops ∧ job.gens = old.gens :=
    fun hsame ↦ ⟨job, hsame ▸ hjob, List.Subset.refl _, rfl⟩
  have hbegin : ∀ {a : Threads cfg κ σ} {who' : κ ⊕ σ} {env : Env κ} {pub : MqttPublish},
      a.jobs = s.jobs → a.gen = s.gen → a.broker.table = s.broker.table →
      a.begin who' env pub = some s' →
      (∃ old, s.jobs who = some old ∧ job.ops ⊆ old.ops ∧ job.gens = old.gens) ∨
        job.gens = s.gen ∧ ∀ op ∈ job.ops, s.broker.table.Serves job.pub.topic op.client := by
    intro a who' env pub hjobs hgen htable hb
    obtain ⟨r, hlocked, rfl⟩ := Option.map_eq_some_iff.mp hb
    by_cases hwho : who = who'
    · subst hwho
      dsimp only at hjob
      rw [Function.update_self] at hjob
      obtain ⟨ops, hops, rfl⟩ := Option.map_eq_some_iff.mp hjob
      refine Or.inr ⟨hgen, ?_⟩
      rw [← htable]
      exact (publishLocked_serve hlocked).2 ops hops
    · apply Or.inl
      apply hkept
      dsimp only
      rw [Function.update_of_ne hwho, hjobs]
  cases step_cases h with
  | publish k env pub ack s' hpc hb =>
      exact hbegin (a := s.goTo k s.broker (.reply ack)) rfl rfl rfl hb
  | will k env s' hpc hwill hb =>
      exact hbegin (a := s.goTo k s.broker .clearWill) rfl rfl rfl hb
  | foreign t env pub s' hfree hb => exact hbegin rfl rfl rfl hb
  | send who' env pub op ops table gens hold =>
      apply Or.inl
      by_cases hwho : who = who'
      · subst hwho
        dsimp only at hjob
        rw [Function.update_self] at hjob
        cases hjob
        exact ⟨_, hold, List.subset_cons_self op ops, rfl⟩
      · exact hkept (Function.update_of_ne hwho _ _)
  | offline who' pub table gens hold =>
      apply Or.inl
      by_cases hwho : who = who'
      · subst hwho
        dsimp only at hjob
        rw [Function.update_self] at hjob
        cases hjob
      · exact hkept (Function.update_of_ne hwho _ _)
  | _ => exact Or.inl (hkept rfl)

/-- Other threads do not subscribe for connection `k`. -/
theorem step_noneOf (h : s.step e = some s') {k : κ} (hk : e.slot ≠ some k)
    (hnone : s.broker.table.NoneOf k) : s'.broker.table.NoneOf k := by
  have hne : ∀ {j : κ}, e.slot = some j → k ≠ j := fun hj hkj ↦ hk (hkj ▸ hj)
  have hbegin : ∀ {a : Threads cfg κ σ} {who : κ ⊕ σ} {env : Env κ} {pub : MqttPublish},
      a.broker.table = s.broker.table → a.begin who env pub = some s' →
      s'.broker.table.NoneOf k := by
    intro a who env pub ha hb
    obtain ⟨r, hlocked, rfl⟩ := Option.map_eq_some_iff.mp hb
    dsimp only
    rwa [(publishLocked_serve hlocked).1, ha]
  cases step_cases h with
  | reject j env pkt code hpc hcheck =>
      rw [goTo_broker, (handleConnect_error env s.broker j hcheck).2.1]
      exact hnone
  | publishPacket j env pkt b pub ack hpc hb =>
      exact (noneOf_rule j).publishBegin hb k (hne (j := j) rfl) hnone
  | packet j env pkt h' hpc hb hrun =>
      exact (noneOf_rule j).dispatch hrun k (hne (j := j) rfl) hnone
  | next j env h' pc hjob hnext =>
      rcases (noneOf_rule j).connStep hnext with hothers | hmarked
      · exact hothers k (hne (j := j) rfl) hnone
      · rw [goTo_broker, connStep_marked hnext hmarked]
        exact hnone
  | publish j env pub ack s' hpc hb =>
      exact hbegin (a := s.goTo j s.broker (.reply ack)) rfl hb
  | will j env s' hpc hwill hb =>
      exact hbegin (a := s.goTo j s.broker .clearWill) rfl hb
  | foreign t env pub s' hfree hb => exact hbegin rfl hb
  | _ => exact hnone

theorem step_gen_cases (h : s.step e = some s') {k : κ} :
    s'.gen k = s.gen k ∨ (∃ fd, e = .alloc k fd) ∧ s'.gen k = s.gen k + 1 := by
  by_cases hk : e.slot = some k
  · cases step_cases h with
    | alloc j fd =>
        cases hk
        exact Or.inr ⟨⟨fd, rfl⟩, Function.update_self _ _ _⟩
    | publish j env pub ack s' hpc hb | will j env s' hpc hwill hb =>
        exact Or.inl (congrFun (begin_frame hb).2 k)
    | foreign | send | offline => cases hk
    | _ => exact Or.inl rfl
  · exact Or.inl (step_untouched h hk).gen

/-! ## The invariant -/

/-- The thread of connection `k` goes on to `client_free`. -/
def Ending (s : Threads cfg κ σ) (k : κ) : Prop :=
  (s.conn k).Freeing ∨ s.conn k = .loop ∧ (s.broker.clients k).state ≠ .connected

/-- What holds of a connection that has been told `l`. -/
structure Talk (s : Threads cfg κ σ) (l : List Bytes) (k : κ) : Prop where
  place : Welcomed l ∨ l = [] ∧ (s.conn k).Early ∨ (l = [] ∨ TurnedAway l) ∧ s.Ending k
  bare : ¬ Welcomed l → s.broker.table.NoneOf k
  jobs : ¬ Welcomed l → ∀ who job, s.jobs who = some job → job.gens k = s.gen k →
    ∀ op ∈ job.ops, op.client ≠ k

/-- No publish has collected anything for a connection that is still to come. -/
def NoneAhead (s : Threads cfg κ σ) : Prop :=
  ∀ who job, s.jobs who = some job → ∀ k, job.gens k ≤ s.gen k

theorem NoneAhead.step (hs : s.NoneAhead) (h : s.step e = some s') : s'.NoneAhead := by
  intro who job hjob k
  have hold : job.gens k ≤ s.gen k := by
    rcases step_job h hjob with ⟨old, hold, -, hgens⟩ | ⟨hgens, -⟩
    · rw [hgens]
      exact hs who old hold k
    · rw [hgens]
  rcases step_gen_cases h (k := k) with hgen | ⟨-, hgen⟩ <;> omega

omit [DecidableEq κ] [DecidableEq σ] in
theorem Talk.of_greeted {l : List Bytes} (h : Welcomed l) (s : Threads cfg κ σ) (k : κ) :
    s.Talk l k where
  place := Or.inl h
  bare hno := absurd h hno
  jobs hno := absurd h hno

/-- A connection that has not been greeted takes no subscription and so no message
with a step. -/
theorem Talk.jobs_step {l : List Bytes} {k : κ} (hs : s.Talk l k) (hno : ¬ Welcomed l)
    (h : s.step e = some s') (hgen : s'.gen k = s.gen k) (who : κ ⊕ σ) (job : PublishJob cfg κ)
    (hjob : s'.jobs who = some job) (hown : job.gens k = s'.gen k) :
    ∀ op ∈ job.ops, op.client ≠ k := by
  intro op hop hopk
  rcases step_job h hjob with ⟨old, hold, hsub, hgens⟩ | ⟨-, hserves⟩
  · have hown' : old.gens k = s.gen k := by rw [← hgens, hown, hgen]
    exact hs.jobs hno who old hold hown' op (hsub hop) hopk
  · obtain ⟨i, huse, hclient, -⟩ := hserves op hop
    exact hs.bare hno i huse (hclient.trans hopk)

theorem Ending.step [Inhabited κ] {k : κ} (hend : s.Ending k) (h : s.step e = some s')
    (hk : e.slot ≠ some k) : s'.Ending k := by
  have halloc : ∀ fd, e ≠ .alloc k fd := by
    rintro fd rfl
    exact hk rfl
  rcases hend with hfree | ⟨hloop, hdown⟩
  · apply Or.inl
    rwa [(step_untouched h hk).conn]
  · refine Or.inr ⟨(step_untouched h hk).conn.trans hloop, ?_⟩
    rcases step_state h halloc with hsame | hdis | ⟨hfree, -⟩
    · rwa [hsame]
    · simp [hdis]
    · simp [hfree]

theorem conversed_alloc (k : κ) (fd : ℤ) (n : κ → List Bytes) :
    (conversed cfg κ σ).note s (.alloc k fd) n k = [] := if_pos rfl

theorem conversed_told {k : κ} (halloc : ∀ fd, e ≠ .alloc k fd) (n : κ → List Bytes) :
    (conversed cfg κ σ).note s e n k = n k ++ s.told k e := by
  cases e with
  | alloc j fd =>
      have hjk : j ≠ k := by
        rintro rfl
        exact halloc fd rfl
      simp [conversed, told, ThreadEvent.slot, hjk]
  | _ => rfl

omit [DecidableEq σ] in
/-- A connection that has not been greeted is told nothing by the other threads. -/
theorem Talk.told_other {l : List Bytes} {k : κ} (hs : s.Talk l k) (hno : ¬ Welcomed l)
    (hk : e.slot ≠ some k) : s.told k e = [] := by
  cases e with
  | send who env =>
      change s.fannedAt k who = []
      unfold fannedAt
      split
      · rename_i pub c frame ops table gens hjob
        apply if_neg
        rintro ⟨hc, hgen⟩
        exact hs.jobs hno who _ hjob hgen _ List.mem_cons_self hc
      · rfl
  | alloc | connect | packet | tick | leave | next | publish => exact if_neg hk
  | foreign | offline => rfl

/-- The step of another thread. -/
theorem Talk.step_other [Inhabited κ] {l : List Bytes} {k : κ} (hs : s.Talk l k)
    (hno : ¬ Welcomed l) (h : s.step e = some s') (hk : e.slot ≠ some k) : s'.Talk l k where
  place := by
    rw [(step_untouched h hk).conn]
    exact hs.place.imp_right (Or.imp_right (And.imp_right fun hend ↦ hend.step h hk))
  bare _ := step_noneOf h hk (hs.bare hno)
  jobs _ := hs.jobs_step hno h (step_untouched h hk).gen

/-- The steps of its own thread, from the first packet to the CONNACK. -/
theorem Talk.place_early {l : List Bytes} {k : κ} (hl : l = []) (hearly : (s.conn k).Early)
    (h : s.step e = some s') (hk : e.slot = some k) (halloc : ∀ fd, e ≠ .alloc k fd) :
    (Welcomed (l ++ s.told k e) ∨ l ++ s.told k e = [] ∧ (s'.conn k).Early ∨
      (l ++ s.told k e = [] ∨ TurnedAway (l ++ s.told k e)) ∧ s'.Ending k) ∧
        s'.broker.table = s.broker.table := by
  subst hl
  cases step_cases h with
  | alloc j fd =>
      cases hk
      exact absurd rfl (halloc fd)
  | notConnect j env pkt hpc htype =>
      cases hk
      refine ⟨Or.inr (Or.inr ⟨Or.inl ?_, Or.inl ?_⟩), rfl⟩
      · simp [told, ThreadEvent.slot, repliedAt, htype]
      · rw [goTo_conn]
        trivial
  | connect j env pkt conn hpc hcheck htype =>
      cases hk
      refine ⟨Or.inr (Or.inl ⟨?_, ?_⟩), rfl⟩
      · simp [told, ThreadEvent.slot, repliedAt, htype, hcheck]
      · rw [goTo_conn]
        trivial
  | reject j env pkt code hpc hcheck htype =>
      cases hk
      have htold : s.told k (.connect k env pkt) = (handleConnect env s.broker k pkt).replies := by
        simp [told, ThreadEvent.slot, repliedAt, htype, hcheck]
      have herror := handleConnect_error env s.broker k hcheck
      obtain ⟨hreplies, htable, hstate⟩ := herror
      rw [htold]
      refine ⟨Or.inr (Or.inr ⟨hreplies, Or.inr ⟨goTo_conn _ _ _ _, ?_⟩⟩), htable⟩
      rw [goTo_broker, hstate]
      simp
  | leave j hpc =>
      cases hk
      refine ⟨Or.inr (Or.inr ⟨Or.inl ?_, Or.inl ?_⟩), rfl⟩
      · simp [told, ThreadEvent.slot, repliedAt]
      · rw [goTo_conn]
        trivial
  | next j env h' pc hjob hnext =>
      cases hk
      have htold : s.told k (.next k env) = h'.replies := by
        simp [told, ThreadEvent.slot, repliedAt, hnext]
      rw [htold, goTo_conn]
      obtain ⟨htable, hearly | hgreet⟩ := connStep_early hnext hearly
      · exact ⟨Or.inr (Or.inl hearly), htable⟩
      · exact ⟨Or.inl hgreet, htable⟩
  | late j env pkt hpc | publishPacket j env pkt b pub ack hpc | packet j env pkt h' hpc
  | tick j env hpc | publish j env pub ack s' hpc | will j env s' hpc =>
      cases hk
      rw [hpc] at hearly
      exact hearly.elim
  | foreign | send | offline => cases hk

/-- The steps of its own thread at the end. -/
theorem Talk.told_ending {k : κ} (hend : s.Ending k) (h : s.step e = some s')
    (hk : e.slot = some k) (halloc : ∀ fd, e ≠ .alloc k fd) :
    s.told k e = [] ∧ (s'.conn k).Freeing ∧
      (s.broker.table.NoneOf k → s'.broker.table.NoneOf k) := by
  cases step_cases h with
  | alloc j fd =>
      cases hk
      exact absurd rfl (halloc fd)
  | next j env h' pc hjob hnext =>
      cases hk
      have htold : s.told k (.next k env) = h'.replies := by
        simp [told, ThreadEvent.slot, repliedAt, hnext]
      obtain ⟨-, hfree, hloop⟩ := connStep_pc_cases hnext
      obtain ⟨hnone, htable⟩ := connStep_ending hnext (hend.imp_right And.left)
      rw [htold, goTo_conn, goTo_broker]
      refine ⟨hnone, ?_, htable⟩
      rcases hend with hpc | ⟨hpc, hdown⟩
      · exact hfree hpc
      · exact hloop hpc hdown
  | will j env s' hpc hwill hb =>
      cases hk
      refine ⟨by simp [told, ThreadEvent.slot, repliedAt], ?_, fun hnone ↦ ?_⟩
      · rw [(begin_frame hb).1, goTo_conn]
        trivial
      · obtain ⟨r, hlocked, rfl⟩ := Option.map_eq_some_iff.mp hb
        dsimp only
        rwa [(publishLocked_serve hlocked).1]
  | leave j hpc =>
      cases hk
      rcases hpc with hpc | hpc <;> simp [Ending, hpc, ConnPc.Freeing] at hend
  | notConnect j env pkt hpc | connect j env pkt conn hpc | reject j env pkt code hpc
  | late j env pkt hpc | publishPacket j env pkt b pub ack hpc | packet j env pkt h' hpc
  | tick j env hpc | publish j env pub ack s' hpc =>
      cases hk
      simp [Ending, hpc, ConnPc.Freeing] at hend
  | foreign | send | offline => cases hk

/-- The step lemma. -/
theorem Talk.step [Inhabited κ] {n : κ → List Bytes} {k : κ} (hs : s.Talk (n k) k)
    (hahead : s.NoneAhead) (hbare : (s'.conn k).Bare → s'.broker.table.NoneOf k)
    (h : s.step e = some s') : s'.Talk ((conversed cfg κ σ).note s e n k) k := by
  by_cases halloc : ∃ fd, e = .alloc k fd
  · obtain ⟨fd, rfl⟩ := halloc
    rw [conversed_alloc]
    cases step_cases h with
    | alloc _ _ hfree =>
        have hpc : ((s.goTo k (clientAlloc s.broker k fd) .waiting).conn k).Early := by
          rw [goTo_conn]
          trivial
        refine ⟨Or.inr (Or.inl ⟨rfl, hpc⟩), fun _ ↦ hbare hpc.bare, fun _ who job hjob hgen ↦ ?_⟩
        have hle : job.gens k ≤ s.gen k := hahead who job hjob k
        simp only [Function.update_self] at hgen
        omega
  have halloc' : ∀ fd, e ≠ .alloc k fd := fun fd he ↦ halloc ⟨fd, he⟩
  rw [conversed_told halloc']
  by_cases hno : Welcomed (n k)
  · exact .of_greeted (hno.append _) s' k
  by_cases hk : e.slot = some k
  · have hgen : s'.gen k = s.gen k := (step_gen_cases h).resolve_right fun hnew ↦ halloc hnew.1
    rcases hs.place with hgreet | ⟨hl, hearly⟩ | ⟨hl, hend⟩
    · exact absurd hgreet hno
    · obtain ⟨hplace, htable⟩ := Talk.place_early hl hearly h hk halloc'
      exact ⟨hplace, fun _ ↦ htable ▸ hs.bare hno, fun _ ↦ hs.jobs_step hno h hgen⟩
    · obtain ⟨htold, hfree, hnone⟩ := Talk.told_ending hend h hk halloc'
      rw [htold, List.append_nil]
      exact ⟨Or.inr (Or.inr ⟨hl, Or.inl hfree⟩), fun hno' ↦ hnone (hs.bare hno'),
        fun _ ↦ hs.jobs_step hno h hgen⟩
  · rw [hs.told_other hno hk, List.append_nil]
    exact hs.step_other hno h hk

end Threads

namespace Sample

/-- A client connects, subscribes to `t` and is sent a message. -/
def greetedEvents : List (ThreadEvent ℕ Unit) :=
  .alloc 0 5 :: collected ++ [.send (.inr ()) env]

end Sample

end MqttBroker
