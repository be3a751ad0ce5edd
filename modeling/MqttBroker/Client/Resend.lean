import MqttBroker.Client.Persist
import MqttBroker.Client.Inbound

/-!
# What a reconnect sends again

Runs of a whole broker in which one client id connects without clean session,
loses its connection and comes back, any number of times.  A QoS 1 message in
flight when the connection ends is sent again by the next CONNECT.
-/

namespace MqttBroker

open Relation

variable {cfg : Config} {κ : Type}

/-! ## `handle_connect` and the sessions -/

theorem connectSession_found {pool : SessionPool cfg} {callocOk : Bool} {conn : MqttConnect}
    {i : SessionSlot cfg} (h : (connectSession pool callocOk conn).2 = (some i, true)) :
    (connectSession pool callocOk conn).1 = pool ∧ ∃ s, SessionAt pool conn.clientId i s := by
  unfold connectSession at h ⊢
  split_ifs at h ⊢
  · simp at h
  · rcases sessionFindOrCreate_cases pool callocOk conn.clientId with
      ⟨j, s, hs, heq⟩ | ⟨-, ⟨p, j, -, -, heq⟩ | ⟨pool', -, heq⟩⟩
    · rw [heq] at h ⊢
      obtain rfl : j = i := by simpa using h
      exact ⟨rfl, s, hs⟩
    · rw [heq] at h
      simp at h
    · rw [heq] at h
      simp at h

theorem connectSession_kept (pool : SessionPool cfg) (callocOk : Bool) {conn : MqttConnect}
    {id : CStr} (hlen : conn.clientId.length < MQTT_CLIENT_ID_MAX) (hne : conn.clientId ≠ id) :
    PoolKept id pool (connectSession pool callocOk conn).1 := by
  unfold connectSession
  split_ifs
  · exact sessionDelete_kept pool hne
  · exact sessionFindOrCreate_kept pool callocOk hlen hne

theorem connectSession_queueOk {pool : SessionPool cfg} (callocOk : Bool) (conn : MqttConnect)
    (hpool : ∀ p, pool = some p → ∀ i, (p i).QueueOk) :
    ∀ p, (connectSession pool callocOk conn).1 = some p → ∀ i, (p i).QueueOk := by
  unfold connectSession
  split_ifs
  · exact sessionDelete_queueOk _ hpool
  · exact sessionFindOrCreate_queueOk callocOk _ hpool

/-- What `handle_connect` makes of the broker. -/
structure Connected (b : Broker cfg κ) (me : κ) (conn : MqttConnect) (b' : Broker cfg κ) :
    Prop where
  retains : b'.retains = b.retains
  self : ReflTransGen ClientStep ((b.clients me).connectFields conn) (b'.clients me)
  others : ∀ k, k ≠ me → ReflTransGen ClientStep (b.clients k) (b'.clients k)
  kept : ∀ id, conn.clientId ≠ id → PoolKept id b.sessions b'.sessions
  queueOk : ∀ p, b'.sessions = some p → ∀ i, (p i).QueueOk

section

variable [DecidableEq κ]

theorem connectAccepted_connected (env : Env κ) {b : Broker cfg κ} (me : κ) {conn : MqttConnect}
    (hlen : conn.clientId.length < MQTT_CLIENT_ID_MAX)
    (hq : ∀ p, b.sessions = some p → ∀ i, (p i).QueueOk) :
    Connected b me conn (connectAccepted env b me conn).broker := by
  obtain ⟨hg, -⟩ := connectGreet_greeted env b me conn
  have hkept : ∀ id, conn.clientId ≠ id →
      PoolKept id b.sessions (connectSession b.sessions env.callocOk conn).1 :=
    fun _ hne ↦ connectSession_kept b.sessions env.callocOk hlen hne
  have hqueue := connectSession_queueOk env.callocOk conn hq
  rw [← hg.sessions] at hkept hqueue
  rcases connectAccepted_cases env b me conn with ⟨heq, -⟩ | ⟨i, hfound, heq⟩
  · rw [heq]
    exact ⟨hg.retains, hg.self, hg.others, hkept, hqueue⟩
  · obtain ⟨hpool, s, hs⟩ := connectSession_found hfound
    have hs' : SessionAt (connectGreet env b me conn).1.broker.sessions conn.clientId i s := by
      rwa [hg.sessions, hpool]
    obtain ⟨t, log, hres⟩ := resumeSession_eq env me hs'
    have hsq : s.QueueOk := by
      obtain ⟨p, hp, rfl, -⟩ := hs'
      exact hqueue p hp i
    rw [heq, hres]
    refine ⟨hg.retains, ?_, fun k hk ↦ ?_, fun id hne ↦ ?_, ?_⟩
    · simpa using hg.self.trans (clientSteps_of_sendSteps (Session.drain_steps hsq _ _ _))
    · simpa [hk] using hg.others k hk
    · have hid : s.drained.clientId = conn.clientId := by
        obtain ⟨-, -, -, -, hid⟩ := hs'
        exact hid
      exact (hkept id hne).trans (updateSession_kept (f := fun _ ↦ s.drained) hs' hne hid)
    · obtain ⟨p, hp, rfl, -⟩ := hs'
      rintro _ hp'
      simp only [Broker.updateSession, hp, Option.map_some, Option.some.injEq] at hp'
      rw [← hp']
      exact poolAll_update (hqueue p hp) (fun j hj ↦ by simp [Session.drained] at hj) i

/-- The session of a connected client: online, and nothing in its queue. -/
def SessionIdle (pool : SessionPool cfg) (id : CStr) : Prop :=
  ∀ i s, SessionAt pool id i s → s.offline = false ∧ ∀ j, (s.queue j).inUse = false

omit [DecidableEq κ] in
theorem PoolKept.idle {id : CStr} {pool pool' : SessionPool cfg} (h : PoolKept id pool pool')
    (hidle : SessionIdle pool id) : SessionIdle pool' id := by
  intro i s' hs'
  obtain ⟨s, hs, hgrow⟩ := h.back i s' hs'
  obtain ⟨hoff, hempty⟩ := hidle i s hs
  refine ⟨hgrow.offline.trans hoff, ?_⟩
  rw [hgrow.idle hoff]
  exact hempty

/-- A CONNECT without clean session leaves its session online and drained. -/
theorem connectAccepted_idle (env : Env κ) {b : Broker cfg κ} (me : κ) {conn : MqttConnect}
    (hclean : conn.cleanSession = false) (hone : OneSession b.sessions conn.clientId) :
    OneSession (connectAccepted env b me conn).broker.sessions conn.clientId ∧
      SessionIdle (connectAccepted env b me conn).broker.sessions conn.clientId := by
  obtain ⟨hg, -⟩ := connectGreet_greeted env b me conn
  have hsess := hg.sessions
  rw [connectSession, if_neg (by simp [hclean])] at hsess
  rcases connectAccepted_cases env b me conn with ⟨heq, hnot⟩ | ⟨i, hfound, heq⟩
  · rw [heq, hsess]
    rw [connectSession, if_neg (by simp [hclean])] at hnot
    rcases sessionFindOrCreate_cases b.sessions env.callocOk conn.clientId with
      ⟨j, s, hs, hcase⟩ | ⟨hnone, ⟨p, j, hp, -, hcase⟩ | ⟨pool', hpool, hcase⟩⟩
    · exact absurd (by rw [hcase]) (hnot j)
    · rw [hcase]
      have hback : ∀ k t, SessionAt (some (Function.update p j (freshSession conn.clientId)))
          conn.clientId k t → k = j ∧ t = freshSession conn.clientId := by
        intro k t ht
        by_cases hkj : k = j
        · subst hkj
          exact ⟨rfl, by simpa using (sessionAt_some.mp ht).1.symm⟩
        · rw [sessionAt_some, Function.update_of_ne hkj, ← sessionAt_some, hp] at ht
          exact absurd ht (hnone k t)
      refine ⟨fun k l t u ht hu ↦ (hback k t ht).1.trans (hback l u hu).1.symm, fun k t ht ↦ ?_⟩
      rw [(hback k t ht).2]
      exact ⟨rfl, fun _ ↦ rfl⟩
    · rw [hcase]
      have hnone' : ∀ k t, ¬ SessionAt pool' conn.clientId k t := fun k t ht ↦
        hnone k t ((hpool _ k t).mp ht)
      exact ⟨fun k _ t _ ht ↦ absurd ht (hnone' k t), fun k t ht ↦ absurd ht (hnone' k t)⟩
  · obtain ⟨hpool, s, hs⟩ := connectSession_found hfound
    have hs' : SessionAt (connectGreet env b me conn).1.broker.sessions conn.clientId i s := by
      rwa [hg.sessions, hpool]
    have hone' : OneSession (connectGreet env b me conn).1.broker.sessions conn.clientId := by
      rwa [hg.sessions, hpool]
    obtain ⟨t, log, hres⟩ := resumeSession_eq env me hs'
    rw [heq, hres]
    have hnew := hone'.updateSession hs' fun _ ↦ s.drained
    refine ⟨hnew, fun j u hu ↦ ?_⟩
    have hdrained : SessionAt ((connectGreet env b me conn).1.broker.updateSession i
        fun _ ↦ s.drained).sessions conn.clientId i s.drained := by
      obtain ⟨-, -, -, huse, hid⟩ := hs
      exact sessionAt_updateSession hs' ⟨huse, hid⟩
    obtain rfl := hnew j i u s.drained hu hdrained
    rw [hu.unique hdrained]
    exact ⟨rfl, fun _ ↦ rfl⟩

/-- A CONNECT that finds a session holding a message sends the message again. -/
theorem connectAccepted_resends (env : Env κ) {b : Broker cfg κ} (me : κ) {conn : MqttConnect}
    (hclean : conn.cleanSession = false) (hone : OneSession b.sessions conn.clientId)
    {i : SessionSlot cfg} {s : Session} (hs : SessionAt b.sessions conn.clientId i s)
    {pub : MqttPublish} (hholds : s.Holds pub) (hsend : pub.Sendable) :
    ∃ frame, packetBuildPublish pub.again PUBLISH_FRAME_MAX = some frame ∧
      .reply frame ∈ (connectAccepted env b me conn).log := by
  obtain ⟨hg, -⟩ := connectGreet_greeted env b me conn
  have hfound : connectSession b.sessions env.callocOk conn = (b.sessions, some i, true) := by
    rw [connectSession, if_neg (by simp [hclean])]
    rcases sessionFindOrCreate_cases b.sessions env.callocOk conn.clientId with
      ⟨j, t, ht, hcase⟩ | ⟨hnone, -⟩
    · rw [hcase, hone j i t s ht hs]
    · exact absurd hs (hnone i s)
  have hs' : SessionAt (connectGreet env b me conn).1.broker.sessions conn.clientId i s := by
    rwa [hg.sessions, hfound]
  rcases connectAccepted_cases env b me conn with ⟨-, hnot⟩ | ⟨j, hj, heq⟩
  · exact absurd (by rw [hfound]) (hnot i)
  · obtain rfl : i = j := by simpa [hfound] using hj
    obtain ⟨t, log, hres⟩ := resumeSession_eq env me hs'
    obtain ⟨frame, hbuild, hmem⟩ := hholds.drain hsend
      ((connectGreet env b me conn).1.broker.clients me) env.now (env.sendOk me)
    refine ⟨frame, hbuild, ?_⟩
    rw [heq, hres]
    exact List.mem_append_right _ (List.mem_map_of_mem hmem)

/-! ## `client_free` -/

theorem publishWill_spec {env : Env κ} {b : Broker cfg κ} {me : κ} {h : Handled cfg κ}
    (hb : b.CStrings) (hrun : publishWill env b me = some h) :
    b.Evolves h.broker ∧ ∀ i, ((b.clients me).inflight i).inUse = true →
      (h.broker.clients me).inflight i = (b.clients me).inflight i := by
  unfold publishWill at hrun
  split_ifs at hrun
  · simp only [Option.bind_eq_bind, Option.bind_eq_some_iff] at hrun
    obtain ⟨h', hcall, hrun⟩ := hrun
    obtain rfl := Option.some.inj hrun
    have hmark := Broker.Evolves.client h'.broker me (fun c ↦ { c with hasWill := false })
      (.single (.mark _ _ _ _ _))
    refine ⟨(callPublish_evolves (hb.will me) hcall).trans hmark, fun i hi ↦ ?_⟩
    obtain ⟨r, hr, rfl⟩ := Option.map_eq_some_iff.mp hcall
    have hkept := sendSteps_inflight_kept (topicPublishInternal_sends (hb.will me) hr me) hi
    simpa [Broker.updateClient] using hkept
  · obtain rfl := Option.some.inj hrun
    exact ⟨.refl b, fun _ _ ↦ rfl⟩

theorem persistSession_frame (b : Broker cfg κ) (me : κ) (callocOk : Bool) :
    (persistSession b me callocOk).clients = b.clients ∧
      (persistSession b me callocOk).retains = b.retains := by
  unfold persistSession
  dsimp only
  split <;> exact ⟨rfl, rfl⟩

/-- The broker in which `client_free` saves or deletes the session, and what
the rest of the function does to it. -/
structure Freed (b : Broker cfg κ) (me : κ) (callocOk : Bool) (b₁ b' : Broker cfg κ) : Prop where
  evolves : (b.updateClient me (·.closeFd)).Evolves b₁
  inflight : ∀ i, ((b.clients me).inflight i).inUse = true →
    (b₁.clients me).inflight i = (b.clients me).inflight i
  clients : b'.clients = Function.update b₁.clients me { b₁.clients me with state := .free }
  retains : b'.retains = b₁.retains
  sessions : b'.sessions =
    if (b₁.clients me).cleanSession then sessionDelete b₁.sessions (b₁.clients me).clientId
    else (persistSession b₁ me callocOk).sessions

theorem closeFd_cstrings {b : Broker cfg κ} (hb : b.CStrings) (me : κ) :
    (b.updateClient me (·.closeFd)).CStrings := by
  refine ⟨hb.retained, hb.queued, fun k ↦ ?_⟩
  by_cases hk : k = me
  · subst hk
    simpa [Broker.updateClient, Client.closeFd] using hb.will k
  · simpa [Broker.updateClient, hk] using hb.will k

theorem clientFree_freed {env : Env κ} {callocOk : Bool} {b : Broker cfg κ} {me : κ}
    {h : Handled cfg κ} (hb : b.CStrings) (hrun : clientFree env callocOk b me = some h) :
    ∃ b₁, Freed b me callocOk b₁ h.broker := by
  simp only [clientFree, Option.bind_eq_bind, Option.bind_eq_some_iff] at hrun
  obtain ⟨h₁, hwill, ⟨t, n⟩, -, hrun⟩ := hrun
  obtain rfl := Option.some.inj hrun
  obtain ⟨hev, hinflight⟩ := publishWill_spec (closeFd_cstrings hb me) hwill
  obtain ⟨hclients, hretains⟩ := persistSession_frame h₁.broker me callocOk
  have hme : ((b.updateClient me (·.closeFd)).clients me).inflight = (b.clients me).inflight := by
    simp [Broker.updateClient, Client.closeFd]
  rw [hme] at hinflight
  refine ⟨h₁.broker, hev, hinflight, ?_, ?_, ?_⟩
  all_goals
    dsimp only [Broker.updateClient]
    split_ifs
    · rfl
    · simp [hclients, hretains]

/-! ## Runs -/

/-- A broker, and the slot of the connection of the client id we follow. -/
structure Live (cfg : Config) (κ : Type) where
  broker : Broker cfg κ
  conn : Option κ

/-- The broker at its start. -/
def Live.init (t : TopicTable cfg κ) : Live cfg κ := ⟨⟨t, none, fun _ ↦ default, none⟩, none⟩

/-- What happens at a broker while a client id, always without clean session,
connects and ends its connections one after the other. -/
inductive Live.Step (id : CStr) : Live cfg κ → Live cfg κ → Prop where
  | accept (s : Live cfg κ) (k : κ) (fd : ℤ) (hk : s.conn ≠ some k) :
      Step id s ⟨clientAlloc s.broker k fd, s.conn⟩
  /-- a packet of any client -/
  | packet (s : Live cfg κ) (env : Env κ) (k : κ) (pkt : MqttPacket) (h : Handled cfg κ)
      (hrun : dispatch env s.broker k pkt = some h) : Step id s ⟨h.broker, s.conn⟩
  | retry (s : Live cfg κ) (k : κ) (now : ℤ) (sendOk : Bool) :
      Step id s ⟨s.broker.updateClient k fun c ↦ (c.inflightRetry now sendOk).1, s.conn⟩
  /-- a publish that no client's packet causes -/
  | publish (s : Live cfg κ) (env : Env κ) (pub : MqttPublish) (propagate : Bool)
      (r : Published cfg κ) (hnul : 0 ∉ pub.topic)
      (hrun : topicPublishInternal env s.broker pub propagate = some r) :
      Step id s ⟨r.broker, s.conn⟩
  | connectOther (s : Live cfg κ) (env : Env κ) (k : κ) (pkt : MqttPacket) (hk : s.conn ≠ some k)
      (hid : ∀ conn, connectCheck cfg pkt = .ok conn → conn.clientId ≠ id) :
      Step id s ⟨(handleConnect env s.broker k pkt).broker, s.conn⟩
  | freeOther (s : Live cfg κ) (env : Env κ) (callocOk : Bool) (k : κ) (h : Handled cfg κ)
      (hk : s.conn ≠ some k) (hid : (s.broker.clients k).clientId ≠ id)
      (hrun : clientFree env callocOk s.broker k = some h) : Step id s ⟨h.broker, s.conn⟩
  | connect (s : Live cfg κ) (env : Env κ) (k : κ) (pkt : MqttPacket) (conn : MqttConnect)
      (hoff : s.conn = none) (hcheck : connectCheck cfg pkt = .ok conn)
      (hid : conn.clientId = id) (hclean : conn.cleanSession = false) :
      Step id s ⟨(handleConnect env s.broker k pkt).broker, some k⟩
  | free (s : Live cfg κ) (env : Env κ) (callocOk : Bool) (k : κ) (h : Handled cfg κ)
      (hk : s.conn = some k) (hrun : clientFree env callocOk s.broker k = some h) :
      Step id s ⟨h.broker, none⟩

/-- What holds of the broker all the time. -/
structure Broker.Sound (id : CStr) (b : Broker cfg κ) : Prop where
  strings : b.CStrings
  ids : ∀ k, (b.clients k).clientId.length < MQTT_CLIENT_ID_MAX
  entries : ∀ k, (b.clients k).Qos1Ok
  one : OneSession b.sessions id

/-- What holds of the followed connection while it is there. -/
def Broker.Online (id : CStr) (b : Broker cfg κ) (k : κ) : Prop :=
  (b.clients k).clientId = id ∧ (b.clients k).cleanSession = false ∧ SessionIdle b.sessions id

namespace Broker

variable {id : CStr} {b b' : Broker cfg κ}

omit [DecidableEq κ] in
theorem Sound.evolves (h : b.Sound id) (hev : b.Evolves b') : b'.Sound id where
  strings := h.strings.evolves hev
  ids k := by
    rw [clientSteps_eq Client.clientId (fun hs ↦ hs.identity.1) (hev.clients k)]
    exact h.ids k
  entries k := (h.entries k).steps (hev.clients k)
  one := (offlineSteps_poolKept hev.sessions id).oneSession h.one

omit [DecidableEq κ] in
theorem Online.congr {k : κ} (h : b.Online id k)
    (hsteps : ReflTransGen ClientStep (b.clients k) (b'.clients k))
    (hkept : PoolKept id b.sessions b'.sessions) : b'.Online id k := by
  refine ⟨?_, ?_, hkept.idle h.2.2⟩
  · rw [clientSteps_eq Client.clientId (fun hs ↦ hs.identity.1) hsteps]
    exact h.1
  · rw [clientSteps_eq Client.cleanSession (fun hs ↦ hs.identity.2.1) hsteps]
    exact h.2.1

theorem Sound.connected {k : κ} {conn : MqttConnect} (h : b.Sound id)
    (hc : Connected b k conn b') (hwill : 0 ∉ conn.willTopic)
    (hone : OneSession b'.sessions id) : b'.Sound id where
  strings := by
    refine ⟨hc.retains ▸ h.strings.retained, hc.queueOk, fun d ↦ ?_⟩
    by_cases hd : d = k
    · subst hd
      rw [clientSteps_eq Client.will ClientStep.will_eq hc.self]
      unfold Client.connectFields
      dsimp only
      split_ifs
      · exact not_mem_take hwill _
      · exact h.strings.will d
    · rw [clientSteps_eq Client.will ClientStep.will_eq (hc.others d hd)]
      exact h.strings.will d
  ids d := by
    by_cases hd : d = k
    · subst hd
      rw [clientSteps_eq Client.clientId (fun hs ↦ hs.identity.1) hc.self]
      exact lt_of_le_of_lt (List.length_take_le _ _) (by decide)
    · rw [clientSteps_eq Client.clientId (fun hs ↦ hs.identity.1) (hc.others d hd)]
      exact h.ids d
  entries d := by
    by_cases hd : d = k
    · subst hd
      have hfields : ((b.clients d).connectFields conn).Qos1Ok := (h.entries d).congr rfl
      exact hfields.steps hc.self
    · exact (h.entries d).steps (hc.others d hd)
  one := hone

theorem Sound.updateClient (h : b.Sound id) (k : κ) (f : Client → Client)
    (hwill : 0 ∉ (f (b.clients k)).will.topic)
    (hlen : (f (b.clients k)).clientId.length < MQTT_CLIENT_ID_MAX)
    (hok : (f (b.clients k)).Qos1Ok) : (b.updateClient k f).Sound id := by
  refine ⟨⟨h.strings.retained, h.strings.queued, fun d ↦ ?_⟩, fun d ↦ ?_, fun d ↦ ?_, h.one⟩
  all_goals
    by_cases hd : d = k
    · subst hd
      simpa [Broker.updateClient] using by assumption
  · simpa [Broker.updateClient, hd] using h.strings.will d
  · simpa [Broker.updateClient, hd] using h.ids d
  · simpa [Broker.updateClient, hd] using h.entries d

theorem Sound.freeing {k : κ} {callocOk : Bool} {b₁ : Broker cfg κ} (h : b.Sound id)
    (hf : Freed b k callocOk b₁ b') : b₁.Sound id :=
  (h.updateClient k (·.closeFd) (h.strings.will k) (h.ids k) ((h.entries k).congr rfl)).evolves
    hf.evolves

end Broker

omit [DecidableEq κ] in
theorem Session.QueueOk.saveInflight {s : Session} (h : s.QueueOk) (e : Inflight) :
    (s.saveInflight e).QueueOk := by
  unfold Session.saveInflight
  split_ifs
  · exact h
  · cases hparse : e.reparse with
    | none => exact h
    | some pub =>
        refine h.enqueue { pub with dup := 1 } ?_ e.packetId
        unfold Inflight.reparse at hparse
        split at hparse
        · cases hparse
        · simp only [Option.bind_eq_bind, Option.bind_eq_some_iff] at hparse
          obtain ⟨r, -, hparse⟩ := hparse
          have hnul := packetParsePublish_nul hparse
          exact hnul

omit [DecidableEq κ] in
theorem Session.QueueOk.saveInflights {s : Session} (h : s.QueueOk) (l : List Inflight) :
    (l.foldl Session.saveInflight s).QueueOk := by
  induction l generalizing s with
  | nil => exact h
  | cons e l ih => exact ih (h.saveInflight e)

theorem persistSession_queueOk {b : Broker cfg κ} (me : κ) (callocOk : Bool)
    (hpool : ∀ p, b.sessions = some p → ∀ i, (p i).QueueOk) :
    ∀ p, (persistSession b me callocOk).sessions = some p → ∀ i, (p i).QueueOk := by
  have hlook := sessionFindOrCreate_queueOk callocOk (b.clients me).clientId hpool
  unfold persistSession
  dsimp only
  split
  · exact hlook
  · rename_i i _
    intro p hp
    simp only [Broker.updateSession] at hp
    obtain ⟨q, hq, rfl⟩ := Option.map_eq_some_iff.mp hp
    exact poolAll_update (hlook q hq)
      (Session.QueueOk.saveInflights (s := (q i).saveSubs _) (hlook q hq i) _) i

theorem persistSession_one {b : Broker cfg κ} {me : κ} {id : CStr} (callocOk : Bool)
    (hid : (b.clients me).clientId = id) (hlen : id.length < MQTT_CLIENT_ID_MAX)
    (hone : OneSession b.sessions id) (hidle : SessionIdle b.sessions id) :
    OneSession (persistSession b me callocOk).sessions id := by
  by_cases hslot : (sessionFindOrCreate b.sessions callocOk id).2.1 = none
  · unfold persistSession
    rw [hid]
    rcases sessionFindOrCreate_cases b.sessions callocOk id with
      ⟨i, s, -, heq⟩ | ⟨-, ⟨p, i, -, -, heq⟩ | ⟨pool', hpool, heq⟩⟩
    · simp [heq] at hslot
    · simp [heq] at hslot
    · simp only [heq]
      exact (PoolKept.of_iff (hpool id)).oneSession hone
  · obtain ⟨i, s, hsaved⟩ := persistSession_saves hid hlen hone (fun i s hs ↦ (hidle i s hs).2) hslot
    exact hsaved.one

theorem Broker.Sound.freed {id : CStr} {b b₁ b' : Broker cfg κ} {k : κ} {callocOk : Bool}
    (h₁ : b₁.Sound id) (hf : Freed b k callocOk b₁ b') (hone : OneSession b'.sessions id) :
    b'.Sound id := by
  have hstate := h₁.updateClient k (fun c ↦ { c with state := .free }) (h₁.strings.will k)
    (h₁.ids k) ((h₁.entries k).congr rfl)
  have hq : ∀ p, b'.sessions = some p → ∀ i, (p i).QueueOk := by
    rw [hf.sessions]
    split_ifs
    · exact sessionDelete_queueOk _ h₁.strings.queued
    · exact persistSession_queueOk k callocOk h₁.strings.queued
  refine ⟨⟨hf.retains ▸ h₁.strings.retained, hq, ?_⟩, ?_, ?_, hone⟩
  all_goals rw [hf.clients]
  · exact hstate.strings.will
  · exact hstate.ids
  · exact hstate.entries

/-- `client_free` of another client id leaves the sessions of `id` alone. -/
theorem Freed.kept {id : CStr} {b b₁ b' : Broker cfg κ} {k : κ} {callocOk : Bool}
    (hf : Freed b k callocOk b₁ b') (h₁ : b₁.Sound id) (hne : (b₁.clients k).clientId ≠ id) :
    PoolKept id b₁.sessions b'.sessions := by
  rw [hf.sessions]
  split_ifs
  · exact sessionDelete_kept _ hne
  · exact persistSession_kept callocOk (h₁.ids k) hne

theorem Freed.others {b b₁ b' : Broker cfg κ} {k : κ} {callocOk : Bool}
    (hf : Freed b k callocOk b₁ b') {d : κ} (hd : d ≠ k) :
    ReflTransGen ClientStep (b.clients d) (b'.clients d) := by
  have hsteps := hf.evolves.clients d
  rw [hf.clients]
  simpa [Broker.updateClient, hd] using hsteps

theorem Freed.clientId {b b₁ b' : Broker cfg κ} {k : κ} {callocOk : Bool}
    (hf : Freed b k callocOk b₁ b') :
    (b₁.clients k).clientId = (b.clients k).clientId ∧
      (b₁.clients k).cleanSession = (b.clients k).cleanSession := by
  have hsteps := hf.evolves.clients k
  rw [clientSteps_eq Client.clientId (fun hs ↦ hs.identity.1) hsteps,
    clientSteps_eq Client.cleanSession (fun hs ↦ hs.identity.2.1) hsteps]
  simp [Broker.updateClient, Client.closeFd]

/-- What holds of a broker and the followed connection in every run. -/
def Live.Ok (id : CStr) (s : Live cfg κ) : Prop :=
  s.broker.Sound id ∧ ∀ k, s.conn = some k → s.broker.Online id k

omit [DecidableEq κ] in
theorem Live.Ok.evolves {id : CStr} {s : Live cfg κ} (h : s.Ok id) {b' : Broker cfg κ}
    (hev : s.broker.Evolves b') : Live.Ok id ⟨b', s.conn⟩ :=
  ⟨h.1.evolves hev,
    fun k hk ↦ (h.2 k hk).congr (hev.clients k) (offlineSteps_poolKept hev.sessions id)⟩

/-- Where `client_free` saves the session of the connection we follow. -/
theorem Live.Ok.free_sessions {id : CStr} {s : Live cfg κ} (h : s.Ok id) {k : κ}
    (hk : s.conn = some k) {callocOk : Bool} {b₁ b' : Broker cfg κ}
    (hf : Freed s.broker k callocOk b₁ b') :
    (b₁.clients k).clientId = id ∧ SessionIdle b₁.sessions id ∧
      b'.sessions = (persistSession b₁ k callocOk).sessions := by
  obtain ⟨hid, hclean, hidle⟩ := h.2 k hk
  obtain ⟨hid₁, hclean₁⟩ := hf.clientId
  refine ⟨hid₁.trans hid, (offlineSteps_poolKept hf.evolves.sessions id).idle hidle, ?_⟩
  rw [hf.sessions, hclean₁, hclean]
  rfl

theorem Live.Step.ok {id : CStr} {s s' : Live cfg κ} (hstep : Live.Step id s s') (h : s.Ok id) :
    s'.Ok id := by
  cases hstep with
  | accept k fd hk =>
      refine ⟨h.1.updateClient k (fun _ ↦ clientAllocated fd) (by simp [clientAllocated, default])
        (by simp [clientAllocated, MQTT_CLIENT_ID_MAX])
        fun i huse ↦ by simp [clientAllocated] at huse, fun d hd ↦ ?_⟩
      have hdk : d ≠ k := fun e ↦ hk (e ▸ hd)
      have hsame : (clientAlloc s.broker k fd).clients d = s.broker.clients d := by
        simp [clientAlloc, Broker.updateClient, hdk]
      exact (h.2 d hd).congr (hsame ▸ .refl) (.refl id _)
  | packet env k pkt h' hrun => exact h.evolves (dispatch_evolves h.1.strings hrun)
  | retry k now sendOk =>
      exact h.evolves (.client s.broker k (fun c ↦ (c.inflightRetry now sendOk).1)
        (.single (.retry _ now sendOk)))
  | publish env pub propagate r hnul hrun =>
      exact h.evolves (topicPublishInternal_evolves hnul hrun)
  | connectOther env k pkt hk hid =>
      unfold handleConnect
      split
      · rename_i conn hcheck
        obtain ⟨hlen, hwill, -⟩ := connectCheck_ok hcheck
        have hc := connectAccepted_connected env k hlen h.1.strings.queued
        have hkept := hc.kept id (hid conn hcheck)
        refine ⟨h.1.connected hc hwill (hkept.oneSession h.1.one), fun d hd ↦ ?_⟩
        exact (h.2 d hd).congr (hc.others d fun e ↦ hk (e ▸ hd)) hkept
      · exact h.evolves ((reply_evolves env k _ ⟨s.broker, []⟩).trans (close_evolves _ k))
  | freeOther env callocOk k h' hk hid hrun =>
      obtain ⟨b₁, hf⟩ := clientFree_freed h.1.strings hrun
      have h₁ := h.1.freeing hf
      have hkept := hf.kept h₁ (hf.clientId.1 ▸ hid)
      refine ⟨h₁.freed hf (hkept.oneSession h₁.one), fun d hd ↦ ?_⟩
      exact (h.2 d hd).congr (hf.others fun e ↦ hk (e ▸ hd))
        ((offlineSteps_poolKept hf.evolves.sessions id).trans hkept)
  | connect env k pkt conn hoff hcheck hid hclean =>
      subst hid
      obtain ⟨hlen, hwill, -⟩ := connectCheck_ok hcheck
      simp only [handleConnect, hcheck]
      have hc := connectAccepted_connected env k hlen h.1.strings.queued
      obtain ⟨hone, hidle⟩ := connectAccepted_idle env k hclean h.1.one
      refine ⟨h.1.connected hc hwill hone, ?_⟩
      rintro _ ⟨rfl⟩
      refine ⟨?_, ?_, hidle⟩
      · rw [clientSteps_eq Client.clientId (fun hs ↦ hs.identity.1) hc.self]
        exact take_clientId hlen
      · rw [clientSteps_eq Client.cleanSession (fun hs ↦ hs.identity.2.1) hc.self]
        exact hclean
  | free env callocOk k h' hk hrun =>
      obtain ⟨b₁, hf⟩ := clientFree_freed h.1.strings hrun
      have h₁ := h.1.freeing hf
      obtain ⟨hid₁, hidle, hsess⟩ := h.free_sessions hk hf
      refine ⟨h₁.freed hf ?_, by simp⟩
      rw [hsess]
      exact persistSession_one callocOk hid₁ (hid₁ ▸ h₁.ids k) h₁.one hidle

omit [DecidableEq κ] in
theorem Live.init_ok (id : CStr) (t : TopicTable cfg κ) : (Live.init t).Ok id := by
  refine ⟨⟨⟨by simp [Live.init], by simp [Live.init], fun k ↦ ?_⟩, fun k ↦ ?_, fun k ↦ ?_, ?_⟩, ?_⟩
  · simp [Live.init, default, clientAllocated]
  · simp [Live.init, default, clientAllocated, MQTT_CLIENT_ID_MAX]
  · exact fun i huse ↦ by simp [Live.init, default, clientAllocated] at huse
  · exact fun i j s t hs ↦ absurd hs not_sessionAt_none
  · simp [Live.init]

theorem Live.run_ok {id : CStr} {s s' : Live cfg κ} (hrun : ReflTransGen (Live.Step id) s s')
    (h : s.Ok id) : s'.Ok id := by
  induction hrun with
  | refl => exact h
  | tail _ hstep ih => exact hstep.ok ih

/-- While the client is away its session only grows. -/
theorem Live.Step.away {id : CStr} {s s' : Live cfg κ} (hstep : Live.Step id s s')
    (h : s.Ok id) (hoff : s.conn = none) (hoff' : s'.conn = none) :
    PoolKept id s.broker.sessions s'.broker.sessions := by
  cases hstep with
  | accept => exact .refl id _
  | packet env k pkt h' hrun =>
      exact offlineSteps_poolKept (dispatch_evolves h.1.strings hrun).sessions id
  | retry => exact .refl id _
  | publish env pub propagate r hnul hrun =>
      exact offlineSteps_poolKept (topicPublishInternal_evolves hnul hrun).sessions id
  | connectOther env k pkt hk hid =>
      unfold handleConnect
      split
      · rename_i conn hcheck
        exact (connectAccepted_connected env k (connectCheck_ok hcheck).clientId_lt
          h.1.strings.queued).kept id (hid conn hcheck)
      · exact offlineSteps_poolKept
          ((reply_evolves env k _ ⟨s.broker, []⟩).trans (close_evolves _ k)).sessions id
  | freeOther env callocOk k h' hk hid hrun =>
      obtain ⟨b₁, hf⟩ := clientFree_freed h.1.strings hrun
      exact (offlineSteps_poolKept hf.evolves.sessions id).trans
        (hf.kept (h.1.freeing hf) (hf.clientId.1 ▸ hid))
  | connect => simp at hoff'
  | free env callocOk k h' hk hrun => simp [hk] at hoff

theorem Live.away_run {id : CStr} {b b' : Broker cfg κ}
    (hrun : ReflTransGen (fun b b' ↦ Live.Step id ⟨b, none⟩ ⟨b', none⟩) b b')
    (h : Live.Ok id ⟨b, none⟩) :
    Live.Ok id ⟨b', none⟩ ∧ PoolKept id b.sessions b'.sessions := by
  induction hrun with
  | refl => exact ⟨h, .refl id _⟩
  | tail _ hstep ih => exact ⟨hstep.ok ih.1, ih.2.trans (hstep.away ih.1 rfl rfl)⟩

/-! ## The message after the reconnect -/

/-- The message of an inflight entry is sent again: a QoS 2 message that waits
for PUBCOMP as PUBREL, any other as PUBLISH with DUP set. -/
def Inflight.SentAgain (e : Inflight) (log : List (Output cfg κ)) : Prop :=
  if e.qos = 2 ∧ e.waitingPubcomp = true then
    ∃ rel, packetBuildPubrel e.packetId 4 = some rel ∧ .reply rel ∈ log
  else
    ∃ pub frame, packetBuildPublish pub PUBLISH_FRAME_MAX = some e.buf ∧
      pub.packetId = e.packetId ∧
      packetBuildPublish pub.again PUBLISH_FRAME_MAX = some frame ∧ .reply frame ∈ log

/-- In every run of a client without clean session, a QoS 1 message in flight
when the connection ends is sent again by the next CONNECT. -/
theorem qos1_inflight_resent {id : CStr} {t : TopicTable cfg κ} {b b₁ b₂ : Broker cfg κ}
    {k k' : κ} {env env' : Env κ} {callocOk : Bool} {log : List (Output cfg κ)}
    {pkt : MqttPacket} {conn : MqttConnect} {i : Fin CLIENT_INFLIGHT_MAX}
    (hrun : ReflTransGen (Live.Step id) (Live.init t) ⟨b, some k⟩)
    (hfree : clientFree env callocOk b k = some ⟨b₁, log⟩)
    (hslot : SlotAvailable b.sessions callocOk id)
    (haway : ReflTransGen (fun b b' ↦ Live.Step id ⟨b, none⟩ ⟨b', none⟩) b₁ b₂)
    (hcheck : connectCheck cfg pkt = .ok conn) (hid : conn.clientId = id)
    (hclean : conn.cleanSession = false) (huse : ((b.clients k).inflight i).inUse = true)
    (hqos : ((b.clients k).inflight i).qos = 1) :
    ((b.clients k).inflight i).SentAgain (handleConnect env' b₂ k' pkt).log := by
  have hok := Live.run_ok hrun (Live.init_ok id t)
  obtain ⟨b₀, hf⟩ := clientFree_freed hok.1.strings hfree
  have h₀ := hok.1.freeing hf
  obtain ⟨hid₀, hidle, hsess⟩ := hok.free_sessions rfl hf
  obtain ⟨pub, hcarries⟩ := hok.1.entries k i huse hqos
  -- `client_free` puts the message into the session queue
  obtain ⟨j, s, hsaved⟩ := persistSession_saves hid₀ (hid₀ ▸ h₀.ids k) h₀.one
    (fun j s hs ↦ (hidle j s hs).2) (hslot.offlineSteps hf.evolves.sessions).lookup
  have hkept := hf.inflight i huse
  have hholds := hsaved.holds i pub (by rwa [hkept]) (by rwa [hkept]) (by rwa [hkept])
  -- where it stays until the client comes back
  have hok₁ : Live.Ok id ⟨b₁, none⟩ :=
    ⟨h₀.freed hf (hsess ▸ hsaved.one), by simp⟩
  obtain ⟨hok₂, hpool⟩ := Live.away_run haway hok₁
  obtain ⟨s', hs', hgrow⟩ := hpool.forth j s (hsess ▸ hsaved.at_slot)
  subst hid
  obtain ⟨frame, hbuild, hmem⟩ := connectAccepted_resends env' k' hclean hok₂.1.one hs'
    (hholds.kept hgrow.kept) (sendable_of_build hcarries.frame)
  have hnot : ¬(((b.clients k).inflight i).qos = 2 ∧
      ((b.clients k).inflight i).waitingPubcomp = true) := by
    rw [hqos]
    rintro ⟨h2, -⟩
    cases h2
  rw [Inflight.SentAgain, if_neg hnot, handleConnect, hcheck]
  exact ⟨pub, frame, hcarries.frame, hcarries.id, hbuild, hmem⟩

end

/-! ## A run -/

namespace Sample

def message (qos : UInt8) : MqttPublish := ⟨[0x74], [0x31], qos, 0, 0, 0⟩

/-- The broker after the CONNECT on slot 0. -/
def online : Broker Config.posix ℕ :=
  (handleConnect env (clientAlloc (Live.init (topicInit Config.posix ℕ)).broker 0 5) 0
    connectPkt).broker

theorem subscribe_isSome : (dispatch env online 0 subscribePkt).isSome = true := by decide

def subscribed : Broker Config.posix ℕ :=
  ((dispatch env online 0 subscribePkt).get subscribe_isSome).broker

/-- The broker with one message in flight to slot 0. -/
def inFlight (qos : UInt8) : Broker Config.posix ℕ :=
  ((topicPublishInternal env subscribed (message qos) false).map (·.broker)).getD subscribed

/-- The broker after slot 0 has lost its connection. -/
def freed (qos : UInt8) : Broker Config.posix ℕ :=
  ((clientFree env true (inFlight qos) 0).map (·.broker)).getD (inFlight qos)

theorem run (qos : UInt8)
    (h : (topicPublishInternal env subscribed (message qos) false).isSome = true) :
    ReflTransGen (Live.Step [0x61]) (Live.init (topicInit Config.posix ℕ))
      ⟨inFlight qos, some 0⟩ := by
  obtain ⟨r, hr⟩ := Option.isSome_iff_exists.mp h
  have hpub : inFlight qos = r.broker := by
    rw [inFlight, hr]
    rfl
  rw [hpub]
  have haccept : Live.Step [0x61] (Live.init (topicInit Config.posix ℕ))
      ⟨clientAlloc (Live.init (topicInit Config.posix ℕ)).broker 0 5, none⟩ :=
    .accept _ 0 5 (by simp [Live.init])
  have hconnect : Live.Step [0x61]
      ⟨clientAlloc (Live.init (topicInit Config.posix ℕ)).broker 0 5, none⟩ ⟨online, some 0⟩ :=
    .connect _ env 0 connectPkt conn rfl rfl rfl rfl
  have hsubscribe : Live.Step [0x61] ⟨online, some 0⟩ ⟨subscribed, some 0⟩ :=
    .packet ⟨online, some 0⟩ env 0 subscribePkt _ (Option.some_get subscribe_isSome).symm
  exact (((ReflTransGen.single haccept).tail hconnect).tail hsubscribe).tail
    (.publish ⟨subscribed, some 0⟩ env (message qos) false r (by simp [message]) hr)

theorem free_eq (qos : UInt8) (h : (clientFree env true (inFlight qos) 0).isSome = true) :
    ∃ log, clientFree env true (inFlight qos) 0 = some ⟨freed qos, log⟩ := by
  obtain ⟨r, hr⟩ := Option.isSome_iff_exists.mp h
  exact ⟨r.log, by rw [freed, hr]; rfl⟩

end Sample

theorem qos1_inflight_resent_once :
    (((Sample.inFlight 1).clients 0).inflight ⟨0, by decide⟩).SentAgain
      (handleConnect Sample.env (Sample.freed 1) 1 Sample.connectPkt).log := by
  obtain ⟨log, hfree⟩ := Sample.free_eq 1 (by decide)
  have hslot : SlotAvailable (Sample.inFlight 1).sessions true [0x61] :=
    ⟨_, rfl, ⟨0, by decide⟩, Or.inr (by decide)⟩
  exact qos1_inflight_resent (Sample.run 1 (by decide)) hfree hslot .refl
    (rfl : connectCheck Config.posix Sample.connectPkt = .ok Sample.conn) rfl rfl (by decide) (by decide)

theorem build_ne_connack {pub : MqttPublish} {rest : Bytes} :
    packetBuildPublish pub PUBLISH_FRAME_MAX ≠ some (PacketType.connack :: rest) := by
  intro h
  obtain ⟨enc, -, hframe⟩ := packetBuildPublish_eq (sendable_of_build h)
  obtain ⟨hhead, -⟩ := List.cons.inj (Option.some.inj (hframe.symm.trans h))
  have hbit := publishHeader_and (m := 0x10) rfl pub
  rw [hhead] at hbit
  exact absurd hbit (by decide)

/-- A QoS 2 message in flight is gone after the reconnect. -/
theorem qos2_inflight_lost :
    ∃ (b b₁ : Broker Config.posix ℕ) (log : List (Output Config.posix ℕ))
      (i : Fin CLIENT_INFLIGHT_MAX),
      ReflTransGen (Live.Step [0x61]) (Live.init (topicInit Config.posix ℕ)) ⟨b, some 0⟩ ∧
      clientFree Sample.env true b 0 = some ⟨b₁, log⟩ ∧ SlotAvailable b.sessions true [0x61] ∧
      connectCheck Config.posix Sample.connectPkt = .ok Sample.conn ∧
      ((b.clients 0).inflight i).inUse = true ∧ ((b.clients 0).inflight i).qos = 2 ∧
      ¬ ((b.clients 0).inflight i).SentAgain
        (handleConnect Sample.env b₁ 1 Sample.connectPkt).log := by
  obtain ⟨log, hfree⟩ := Sample.free_eq 2 (by decide)
  refine ⟨Sample.inFlight 2, Sample.freed 2, log, ⟨0, by decide⟩, Sample.run 2 (by decide), hfree,
    ⟨_, rfl, ⟨0, by decide⟩, Or.inr (by decide)⟩, rfl, by decide, by decide, ?_⟩
  have hreplies : (handleConnect Sample.env (Sample.freed 2) 1 Sample.connectPkt).replies =
      [[PacketType.connack, 2, 1, 0]] := by decide
  rw [Inflight.SentAgain, if_neg (by decide)]
  rintro ⟨pub, frame, -, -, hbuild, hmem⟩
  have hframe : frame ∈ (handleConnect Sample.env (Sample.freed 2) 1 Sample.connectPkt).replies :=
    List.mem_filterMap.mpr ⟨_, hmem, rfl⟩
  rw [hreplies, List.mem_singleton] at hframe
  exact build_ne_connack (hframe ▸ hbuild)

end MqttBroker
