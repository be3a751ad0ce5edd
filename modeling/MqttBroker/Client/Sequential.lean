import MqttBroker.Client.Threads

/-!
# Threads that are not interrupted

Without other threads in between, the steps of a publish, of `handle_connect`
and of `client_free` do what the functions do as a whole.
-/

namespace MqttBroker

variable {cfg : Config} {κ σ : Type}

section

variable [DecidableEq κ] [DecidableEq σ]

open Relation

/-- Without other threads in between, a publish in steps is `topic_publish_internal`. -/
theorem topicPublishInternal_steps {s : Threads cfg κ σ} {who : κ ⊕ σ} {env : Env κ}
    {pub : MqttPublish} {propagate : Bool} {r : Published cfg κ} (hjob : s.jobs who = none)
    (hrun : topicPublishInternal env s.broker pub propagate = some r) :
    ∃ s', s.begin who env pub = some s' ∧
      ReflTransGen Threads.Step s' { s with broker := r.broker } := by
  have hsends : ∀ (ops : List (SendOp κ)) (b : Broker cfg κ), ReflTransGen Threads.Step
      ({ s with
        broker := b
        jobs := Function.update s.jobs who (some ⟨pub, ops, s.broker.table, s.gen⟩) } : Threads cfg κ σ)
      { s with broker := { b with
          clients := ops.foldl (SendOp.run env) b.clients
          sessions := (sessionOfflinePublish b.sessions pub topicMatch).1 } } := by
    intro ops
    induction ops with
    | nil =>
        intro b
        refine .single ⟨.offline who, ?_⟩
        simp [Threads.step, ← hjob]
    | cons op ops ih =>
        intro b
        refine (ih { b with clients := op.run env b.clients }).head ⟨.send who env, ?_⟩
        simp [Threads.step]
  unfold topicPublishInternal at hrun
  unfold Threads.begin publishLocked
  cases hretain : retainPublish s.broker.retains env.callocOk pub with
  | none =>
      rw [hretain] at hrun
      obtain rfl := Option.some.inj hrun
      exact ⟨_, rfl, by simpa [← hjob] using .refl⟩
  | some retains =>
      rw [hretain] at hrun
      obtain ⟨r', hfan, rfl⟩ := Option.map_eq_some_iff.mp hrun
      have hops := topicFanOut_eq_ops env s.broker.table s.broker.clients pub
      rw [hfan, Option.map_some] at hops
      obtain ⟨⟨clients, ops⟩, hops, hclients⟩ := Option.map_eq_some_iff.mp hops.symm
      refine ⟨_, by rw [hops]; rfl, ?_⟩
      have hsteps := hsends ops { s.broker with retains := retains, clients := clients }
      rw [← hclients]
      exact hsteps

/-- One step of a thread that waits for nothing. -/
def ConnNext (me : κ) (p p' : Broker cfg κ × ConnPc cfg) : Prop :=
  ∃ env h, connStep env p.1 me p.2 = some (h, p'.2) ∧ h.broker = p'.1

theorem ConnNext.steps {s : Threads cfg κ σ} {k : κ} (hjob : s.jobs (.inl k) = none)
    {p p' : Broker cfg κ × ConnPc cfg} (h : ReflTransGen (ConnNext k) p p') :
    ReflTransGen Threads.Step (s.goTo k p.1 p.2) (s.goTo k p'.1 p'.2) := by
  induction h with
  | refl => exact .refl
  | tail _ hstep ih =>
      obtain ⟨env, h, hnext, hb⟩ := hstep
      exact ih.tail ⟨.next k env, by simp [Threads.step, hjob, hnext, hb]⟩

omit [DecidableEq κ] in
theorem drop_finRange {n i : ℕ} (h : i < n) :
    (List.finRange n).drop i = ⟨i, h⟩ :: (List.finRange n).drop (i + 1) := by
  rw [List.drop_eq_getElem_cons (by simpa using h)]
  simp

omit [DecidableEq σ] in
theorem restoreOne_broker (me : κ) (s : SessionSlot cfg) (h : Handled cfg κ)
    (i : Fin SESSION_SUB_MAX) :
    (restoreOne me s ⟨h.broker, []⟩ i).broker = (restoreOne me s h i).broker := by
  unfold restoreOne
  split_ifs <;> rfl

omit [DecidableEq σ] in
/-- The stored subscriptions one at a time. -/
theorem restore_nexts (env : Env κ) (me : κ) (s : SessionSlot cfg) {k i : ℕ}
    (hi : i + k = SESSION_SUB_MAX) (h : Handled cfg κ) :
    ReflTransGen (ConnNext me) (h.broker, .restore s i)
      ((((List.finRange SESSION_SUB_MAX).drop i).foldl (restoreOne me s) h).broker,
        .online s) := by
  have hskip : ∀ (h : Handled cfg κ) (l : List (Fin SESSION_SUB_MAX)),
      (∀ j ∈ l, ¬ j.val < (h.broker.session s).subCount) → l.foldl (restoreOne me s) h = h := by
    intro h l hl
    induction l with
    | nil => rfl
    | cons j l ih =>
        rw [List.foldl_cons, restoreOne, if_neg (hl j List.mem_cons_self)]
        exact ih fun j hj ↦ hl j (List.mem_cons_of_mem _ hj)
  induction k generalizing i h with
  | zero =>
      have hnil : (List.finRange SESSION_SUB_MAX).drop i = [] :=
        List.drop_eq_nil_of_le (by rw [List.length_finRange]; omega)
      rw [hnil]
      exact .single ⟨env, ⟨h.broker, []⟩, dif_neg fun hlt ↦ absurd hlt.1 (by omega), rfl⟩
  | succ k ih =>
      have hlt : i < SESSION_SUB_MAX := by omega
      by_cases hcount : i < (h.broker.session s).subCount
      · rw [drop_finRange hlt, List.foldl_cons]
        have hstep : connStep env h.broker me (.restore s i) =
            some (restoreOne me s ⟨h.broker, []⟩ ⟨i, hlt⟩, .restore s (i + 1)) :=
          dif_pos ⟨hlt, hcount⟩
        exact (ih (by omega) (restoreOne me s h ⟨i, hlt⟩)).head
          ⟨env, _, hstep, restoreOne_broker me s h ⟨i, hlt⟩⟩
      · rw [hskip h _ fun j hj ↦ ?_]
        · exact .single ⟨env, ⟨h.broker, []⟩, dif_neg fun hlt ↦ absurd hlt.2 hcount, rfl⟩
        · obtain ⟨n, hn, rfl⟩ := List.mem_drop_iff_getElem.mp hj
          simp
          omega

omit [DecidableEq σ] in
theorem ConnNext.mk (env : Env κ) {me : κ} {b : Broker cfg κ} {pc pc' : ConnPc cfg}
    {h : Handled cfg κ} (hnext : connStep env b me pc = some (h, pc')) :
    ConnNext me (b, pc) (h.broker, pc') := ⟨env, h, hnext, rfl⟩

omit [DecidableEq σ] in
theorem updateClient_updateClient (b : Broker cfg κ) (me : κ) (f g : Client → Client) :
    (b.updateClient me f).updateClient me g = b.updateClient me fun c ↦ g (f c) := by
  simp [Broker.updateClient]

omit [DecidableEq σ] in
/-- `handle_connect` from `client_takeover` on is its steps in a row. -/
theorem connectAccepted_nexts (env : Env κ) (b : Broker cfg κ) (me : κ) (conn : MqttConnect) :
    ReflTransGen (ConnNext me) (b, .takeover conn)
      ((connectAccepted env b me conn).broker, .loop) := by
  have hgreet : ReflTransGen (ConnNext me) (b, .takeover conn)
      ((connectGreet env b me conn).1.broker,
        .afterConnack (connectGreet env b me conn).2.1 (connectGreet env b me conn).2.2) := by
    have hfields := updateClient_updateClient (clientTakeover b me conn.clientId) me
      (·.assignId conn) (·.assignRest conn)
    simp only [Client.assignRest_assignId] at hfields
    unfold connectGreet
    rw [← hfields]
    exact .head (.mk env rfl) (.head (.mk env rfl) (.head (.mk env rfl) (.head (.mk env rfl)
      (.single (.mk env rfl)))))
  unfold connectAccepted
  generalize connectGreet env b me conn = r at hgreet
  obtain ⟨h, sess, present⟩ := r
  rcases sess with - | s <;> cases present
  · exact hgreet
  · exact hgreet
  · exact hgreet
  · refine hgreet.trans ((restore_nexts env me s (zero_add _) h).trans
      (.head (.mk env rfl) ?_))
    exact .single ⟨env, drainSession env me s _, rfl, rfl⟩

omit [DecidableEq κ] [DecidableEq σ] in
theorem updateSession_updateSession (b : Broker cfg κ) (s : SessionSlot cfg)
    (f g : Session → Session) :
    (b.updateSession s f).updateSession s g = b.updateSession s fun x ↦ g (f x) := by
  have hpool : (fun pool : SessionSlot cfg → Session ↦ Function.update pool s (g (pool s))) ∘
      (fun pool ↦ Function.update pool s (f (pool s))) =
      fun pool ↦ Function.update pool s (g (f (pool s))) := funext fun pool ↦ by simp
  simp only [Broker.updateSession, Option.map_map, hpool]

omit [DecidableEq κ] [DecidableEq σ] in
theorem updateSession_id (b : Broker cfg κ) (s : SessionSlot cfg) :
    b.updateSession s (fun x ↦ x) = b := by
  simp [Broker.updateSession]

omit [DecidableEq σ] in
/-- The inflight table one entry at a time. -/
theorem saveInflight_nexts (env : Env κ) (me : κ) (s : SessionSlot cfg) {k i : ℕ}
    (hi : i + k = CLIENT_INFLIGHT_MAX) (b : Broker cfg κ) :
    ReflTransGen (ConnNext me) (b, .saveInflight s i)
      (b.updateSession s fun x ↦ (((List.finRange CLIENT_INFLIGHT_MAX).drop i).map
        (b.clients me).inflight).foldl Session.saveInflight x, .unsubscribe) := by
  induction k generalizing i b with
  | zero =>
      have hnil : (List.finRange CLIENT_INFLIGHT_MAX).drop i = [] :=
        List.drop_eq_nil_of_le (by rw [List.length_finRange]; omega)
      simp only [hnil, List.map_nil, List.foldl_nil, updateSession_id]
      have hstep : connStep env b me (.saveInflight s i) = some (⟨b, []⟩, .unsubscribe) :=
        dif_neg (by omega)
      exact .single (.mk env hstep)
  | succ k ih =>
      have hlt : i < CLIENT_INFLIGHT_MAX := by omega
      have hstep : connStep env b me (.saveInflight s i) =
          some (⟨b.updateSession s (·.saveInflight ((b.clients me).inflight ⟨i, hlt⟩)), []⟩,
            .saveInflight s (i + 1)) := dif_pos hlt
      have hrest := ih (i := i + 1) (by omega)
        (b.updateSession s (·.saveInflight ((b.clients me).inflight ⟨i, hlt⟩)))
      rw [updateSession_updateSession] at hrest
      rw [drop_finRange hlt]
      exact hrest.head (.mk env hstep)

omit [DecidableEq σ] in
theorem unsubscribe_eq (env : Env κ) (b : Broker cfg κ) (me : κ) :
    connStep env b me .unsubscribe = (unsubscribeSection b.table me).map fun r ↦
      (⟨{ b with table := r.1 }, (r.2.getD []).map .notify⟩,
        if r.2.isSome then .unsubscribe else .delete) := rfl

omit [DecidableEq σ] in
/-- `topic_unsubscribe_all` one section at a time. -/
theorem unsubscribe_nexts (env : Env κ) (me : κ) {b : Broker cfg κ} {t : TopicTable cfg κ}
    {n : List Notify} (hall : b.table.topicUnsubscribeAll me = some (t, n)) :
    ReflTransGen (ConnNext me) (b, .unsubscribe) ({ b with table := t }, .delete) := by
  have hrounds : ∀ (k : ℕ) (b : Broker cfg κ) (r : TopicTable cfg κ × List Notify),
      cfg.p2pDynamic = true → TopicTable.unsubscribeRounds me k b.table = some r →
        ReflTransGen (ConnNext me) (b, .unsubscribe) ({ b with table := r.1 }, .delete) := by
    intro k
    induction k with
    | zero => simp [TopicTable.unsubscribeRounds]
    | succ k ih =>
        intro b r hp hr
        rw [TopicTable.unsubscribeRounds] at hr
        have hsec := unsubscribe_eq env b me
        simp only [unsubscribeSection, if_pos hp] at hsec
        generalize (List.finRange cfg.topicMaxSubs).find? _ = found at hr hsec
        cases found with
        | none =>
            obtain rfl := Option.some.inj hr
            exact .single (.mk env hsec)
        | some i =>
            obtain ⟨t', hremove, hr⟩ := Option.bind_eq_some_iff.mp hr
            obtain ⟨r', hrest, hr⟩ := Option.bind_eq_some_iff.mp hr
            obtain rfl := Option.some.inj hr
            simp only [hremove, Option.bind_eq_bind, Option.bind_some, Option.map_some] at hsec
            exact (ih { b with table := t' } r' hp hrest).head (.mk env hsec)
  by_cases hp : cfg.p2pDynamic = true
  · rw [TopicTable.topicUnsubscribeAll, if_pos hp] at hall
    exact hrounds _ b (t, n) hp hall
  · have hsec := unsubscribe_eq env b me
    simp only [unsubscribeSection, if_neg hp, hall] at hsec
    exact .single (.mk env hsec)

omit [DecidableEq σ] in
theorem persistSession_clients (b : Broker cfg κ) (me : κ) (callocOk : Bool) :
    (persistSession b me callocOk).clients = b.clients := by
  unfold persistSession
  dsimp only
  cases (sessionFindOrCreate b.sessions callocOk (b.clients me).clientId).2.1 <;> rfl

omit [DecidableEq σ] in
theorem persistSession_nexts (env : Env κ) (b : Broker cfg κ) (me : κ)
    (hclean : (b.clients me).cleanSession = false) :
    ReflTransGen (ConnNext me) (b, .collect) (persistSession b me env.callocOk, .unsubscribe) := by
  have hcollect : connStep env b me .collect =
      some (⟨b, []⟩, .lookup (b.table.topicGetClientSubs me SESSION_SUB_MAX)) := by
    simp [connStep, hclean]
  refine .head (.mk env hcollect) ?_
  refine .head (.mk env rfl) ?_
  unfold persistSession
  dsimp only
  generalize sessionFindOrCreate b.sessions env.callocOk (b.clients me).clientId = r
  obtain ⟨pool, sess, present⟩ := r
  cases sess with
  | none => exact .refl
  | some s =>
      refine .head (.mk env rfl) ?_
      have hsave := saveInflight_nexts env me s (zero_add _) (({ b with sessions := pool } :
        Broker cfg κ).updateSession s
          (·.saveSubs (b.table.topicGetClientSubs me SESSION_SUB_MAX)))
      rw [updateSession_updateSession] at hsave
      exact hsave

/-- The will message, published in steps. -/
theorem publishWill_steps {s : Threads cfg κ σ} {k : κ} (hjob : s.jobs (.inl k) = none)
    {env : Env κ} {b : Broker cfg κ} {h : Handled cfg κ} (hwill : publishWill env b k = some h) :
    ReflTransGen Threads.Step (s.goTo k b .will) (s.goTo k h.broker .collect) := by
  unfold publishWill at hwill
  split_ifs at hwill with hhas
  · obtain ⟨h', hcall, hwill⟩ := Option.bind_eq_some_iff.mp hwill
    obtain rfl := Option.some.inj hwill
    obtain ⟨r, hr, rfl⟩ := Option.map_eq_some_iff.mp hcall
    have hjob' : (s.goTo k b .clearWill).jobs (.inl k) = none := hjob
    obtain ⟨s', hbegin, hsteps⟩ := topicPublishInternal_steps hjob' hr
    have hpublish : (s.goTo k b .will).Step s' :=
      ⟨.publish k env, by simpa [Threads.step, hhas] using hbegin⟩
    refine (hsteps.head hpublish).trans ?_
    exact ConnNext.steps hjob (p := (r.broker, .clearWill)) (.single (.mk env rfl))
  · obtain rfl := Option.some.inj hwill
    have hnext : connStep env b k .will = some (⟨b, []⟩, .collect) := by simp [connStep, hhas]
    exact ConnNext.steps hjob (p := (b, .will)) (.single (.mk env hnext))

/-- Without other threads in between, `client_free` is its steps in a row. -/
theorem clientFree_steps {s : Threads cfg κ σ} {k : κ} (hjob : s.jobs (.inl k) = none)
    {env : Env κ} {callocOk : Bool} {h : Handled cfg κ}
    (hfree : clientFree env callocOk s.broker k = some h) :
    ReflTransGen Threads.Step (s.goTo k s.broker .closeFd) (s.goTo k h.broker .idle) := by
  obtain ⟨h₁, hwill, hfree⟩ := Option.bind_eq_some_iff.mp hfree
  obtain ⟨⟨t, n⟩, hall, hfree⟩ := Option.bind_eq_some_iff.mp hfree
  obtain rfl := Option.some.inj hfree
  have hclose : ReflTransGen Threads.Step (s.goTo k s.broker .closeFd)
      (s.goTo k (s.broker.updateClient k (·.closeFd)) .will) :=
    ConnNext.steps hjob (p := (s.broker, .closeFd)) (.single (.mk env rfl))
  refine hclose.trans ((publishWill_steps hjob hwill).trans ?_)
  have hend : ∀ b : Broker cfg κ, (b.clients k).cleanSession = (h₁.broker.clients k).cleanSession →
      (b.clients k).clientId = (h₁.broker.clients k).clientId →
      b.table.topicUnsubscribeAll k = some (t, n) →
      ReflTransGen (ConnNext k) (b, .unsubscribe)
        ((if (h₁.broker.clients k).cleanSession then
            { b with
              table := t
              sessions := sessionDelete b.sessions (h₁.broker.clients k).clientId }
          else { b with table := t }).updateClient k fun c ↦ { c with state := .free }, .idle) := by
    intro b hclean hid hall
    refine (unsubscribe_nexts env k hall).trans (.head (.mk env rfl) ?_)
    dsimp only
    rw [hclean, hid]
    exact .single ⟨env, _, rfl, rfl⟩
  by_cases hclean : (h₁.broker.clients k).cleanSession = true
  · simp only [if_pos hclean] at hall hend ⊢
    have hcollect : connStep env h₁.broker k .collect = some (⟨h₁.broker, []⟩, .unsubscribe) := by
      simp [connStep, hclean]
    exact ConnNext.steps hjob (.head (.mk env hcollect) (hend h₁.broker rfl rfl hall))
  · simp only [if_neg hclean] at hall hend ⊢
    have hclients := persistSession_clients h₁.broker k callocOk
    exact ConnNext.steps hjob ((persistSession_nexts { env with callocOk := callocOk } h₁.broker k
      (by simpa using hclean)).trans (hend _ (by rw [hclients]) (by rw [hclients]) hall))

omit [DecidableEq σ] in
/-- A packet that publishes: its handler up to `topic_publish`, the call, and
the acknowledgement. -/
theorem dispatch_of_publishBegin {env : Env κ} {b b' : Broker cfg κ} {me : κ} {pkt : MqttPacket}
    {pub : MqttPublish} {ack : Option Bytes}
    (h : publishBegin env b me pkt = some (b', pub, ack)) :
    dispatch env b me pkt = (callPublish env b' pub).map fun h ↦ h.reply env me ack := by
  unfold publishBegin at h
  rcases ite_eq_iff.mp h with ⟨-, h⟩ | ⟨hheader, h⟩
  · cases h
  obtain ⟨hok, htype⟩ : pkt.headerOk = true ∧ pkt.type = PacketType.publish := by
    simpa using hheader
  have hconnect : PacketType.publish ≠ PacketType.connect := by decide
  unfold dispatch dispatchType
  simp only [hok, htype, Bool.not_true, Bool.false_eq_true, if_false, if_neg hconnect, if_true]
  generalize b.updateClient me (fun c ↦ { c with lastSeenMs := env.now }) = b₁ at h
  unfold handlePublish
  cases hparse : packetParsePublish pkt with
  | none => simp [hparse] at h
  | some pub' =>
      simp only [hparse] at h ⊢
      rcases ite_eq_iff.mp h with ⟨-, h⟩ | ⟨htests, h⟩
      · cases h
      obtain ⟨hqos, htopic, hid⟩ := not_or.mp htests |>.imp id not_or.mp
      rw [if_neg hqos, if_neg htopic, if_neg hid]
      unfold publishAccepted
      by_cases hq : pub'.qos = 2
      · rw [if_pos hq] at h ⊢
        cases hslot : (b₁.clients me).qos2In.slot pub'.packetId with
        | free i =>
            simp only [hslot, Option.some.injEq, Prod.mk.injEq] at h ⊢
            obtain ⟨rfl, rfl, rfl⟩ := h
            cases callPublish env _ pub' <;> rfl
        | dup => simp [hslot] at h
        | full => simp [hslot] at h
      · rw [if_neg hq] at h ⊢
        simp only [Option.some.injEq, Prod.mk.injEq] at h
        obtain ⟨rfl, rfl, rfl⟩ := h
        by_cases hq : pub'.qos = 1
        · simp only [if_pos hq]
          cases callPublish env b₁ pub' <;> rfl
        · simp only [if_neg hq]
          cases callPublish env b₁ pub' <;> rfl

end

end MqttBroker
