import MqttBroker.Client.Threads

/-!
# One connection for each client id

`client_takeover` looks for older holders of a client id under `pool_lock`, and
the id of the new connection is written after the lock is released.  A second
CONNECT with the id that scans in between finds neither.
-/

namespace MqttBroker

variable {cfg : Config} {κ σ : Type}

/-! ## Steps that leave the ids alone -/

namespace Client

/-- The client id stays, and the state stays or becomes DISCONNECTING. -/
structure IdKept (c c' : Client) : Prop where
  clientId : c'.clientId = c.clientId
  state : c'.state = c.state ∨ c'.state = .disconnecting

theorem IdKept.refl (c : Client) : IdKept c c := ⟨rfl, Or.inl rfl⟩

theorem IdKept.trans {a b c : Client} (h : IdKept a b) (h' : IdKept b c) : IdKept a c where
  clientId := h'.clientId.trans h.clientId
  state := by
    rcases h'.state with heq | heq
    · rw [heq]
      exact h.state
    · exact Or.inr heq

theorem IdKept.state_of_ne {c c' : Client} (h : IdKept c c') (hne : c'.state ≠ .disconnecting) :
    c'.state = c.state := h.state.resolve_right hne

theorem clientSend_idKept (c : Client) (sendOk : Bool) : IdKept c (c.clientSend sendOk) := by
  unfold clientSend
  split_ifs
  · exact .refl c
  · exact ⟨rfl, Or.inr rfl⟩

theorem inflightStore_idKept (c : Client) (id : UInt16) (buf : Bytes) (qos : UInt8) (now : ℤ) :
    IdKept c (c.inflightStore id buf qos now) := by
  unfold inflightStore
  split <;> exact ⟨rfl, Or.inl rfl⟩

theorem idKept_send : SendRule (fun _ ↦ True) IdKept where
  refl := .refl
  trans := .trans
  send := clientSend_idKept
  takeId _ _ := ⟨rfl, Or.inl rfl⟩
  store c pub buf now _ _ := inflightStore_idKept c pub.packetId buf pub.qos now

theorem inflightAck_idKept (c : Client) (id : UInt16) : IdKept c (c.inflightAck id) := by
  unfold inflightAck
  split <;> exact ⟨rfl, Or.inl rfl⟩

theorem pubrec_idKept (c : Client) (id : UInt16) (now : ℤ) (sendOk : Bool) :
    IdKept c (c.pubrec id now sendOk).1 := by
  unfold pubrec
  split
  · exact .refl c
  · split
    · exact .refl c
    · exact (clientSend_idKept c sendOk).trans ⟨rfl, Or.inl rfl⟩

theorem inflightRetry_idKept (c : Client) (now : ℤ) (sendOk : Bool) :
    IdKept c (c.inflightRetry now sendOk).1 := by
  have hentries : IdKept c { c with inflight := fun i ↦ (retryEntry now (c.inflight i)).1 } :=
    ⟨rfl, Or.inl rfl⟩
  unfold inflightRetry
  dsimp only
  split_ifs
  · exact hentries
  · exact hentries.trans (clientSend_idKept _ sendOk)

theorem Mark.idKept {c c' : Client} (h : Mark c c') : IdKept c c' := by
  cases h with
  | mk hstate => exact ⟨rfl, hstate⟩

end Client

section

variable [DecidableEq κ]

open Client

theorem idKept_update {clients : κ → Client} {k : κ} {c : Client} (h : IdKept (clients k) c)
    (j : κ) : IdKept (clients j) (Function.update clients k c j) := idKept_send.update h j

/-- Up to the steps of `client_takeover` no step gives a connection an id. -/
theorem idKept_rule (me : κ) : ThreadRule me fun b b' : Broker cfg κ ↦
    ∀ j, IdKept (b.clients j) (b'.clients j) where
  refl _ _ := .refl _
  trans h h' j := (h j).trans (h' j)
  subscribe _ _ _ _ _ _ _ := .refl _
  restore _ _ _ _ := .refl _
  unsubscribe _ _ _ _ _ := .refl _
  unsubscribeSection _ _ _ _ := .refl _
  mark _ f hf := idKept_update (hf _).idKept
  send _ sendOk := idKept_update (clientSend_idKept _ sendOk)
  ack _ id := idKept_update (inflightAck_idKept _ id)
  pubrec _ id now sendOk := idKept_update (pubrec_idKept _ id now sendOk)
  retained b filter qos now sendOk := idKept_update
    (idKept_send.retained (fun _ _ _ _ _ ↦ trivial) _ filter qos now sendOk)
  publish _ _ _ _ _ hrun := idKept_send.publish (fun _ ↦ trivial) hrun
  sessions _ _ _ := .refl _
  drain _ x now sendOk := idKept_update (idKept_send.drain (fun _ _ ↦ trivial) _ now sendOk)
  retry _ now sendOk := idKept_update (inflightRetry_idKept _ now sendOk)
  assignRest _ _ := idKept_update ⟨rfl, Or.inl rfl⟩
  closeFd _ := idKept_update ⟨rfl, Or.inl rfl⟩
  locked h := idKept_send.locked h
  op env b op := by
    cases op with
    | send c frame => exact idKept_update (clientSend_idKept _ (env.sendOk c))
    | store c id frame qos => exact idKept_update (inflightStore_idKept _ id frame qos env.now)

end

/-! ## Client ids along a run -/

namespace Threads

/-- Connection `k` is up and has the client id, which is empty until
`handle_connect` accepts a CONNECT. -/
def Holds (s : Threads cfg κ σ) (k : κ) (id : CStr) : Prop :=
  (s.broker.clients k).state = .connected ∧ (s.broker.clients k).clientId = id

/-- No two connections that are up have one client id. -/
def OneHolder (s : Threads cfg κ σ) : Prop :=
  ∀ id, id ≠ [] → ∀ j k, s.Holds j id → s.Holds k id → j = k

/-- Connection `k` is up and between its `client_takeover` and the assignment
of the client id. -/
def Writing (s : Threads cfg κ σ) (k : κ) (id : CStr) : Prop :=
  (s.broker.clients k).state = .connected ∧ ∃ conn, s.conn k = .assignId conn ∧ conn.clientId = id

/-- A `client_takeover` by a connection that is up looks for no client id that
another connection is about to write. -/
def ScansAlone (s : Threads cfg κ σ) (e : ThreadEvent κ σ) : Prop :=
  ∀ k env conn, e = .next k env → s.conn k = .takeover conn → conn.clientId ≠ [] →
    (s.broker.clients k).state = .connected → ∀ j, j ≠ k → ¬ s.Writing j conn.clientId

/-- What keeps client ids apart. -/
structure IdsApart (s : Threads cfg κ σ) : Prop where
  short : ∀ k conn, s.conn k = .takeover conn ∨ s.conn k = .assignId conn →
    conn.clientId.length < MQTT_CLIENT_ID_MAX
  holders : s.OneHolder
  writers : ∀ id, id ≠ [] → ∀ j k, s.Writing j id → s.Writing k id → j = k
  apart : ∀ id, id ≠ [] → ∀ j k, s.Writing j id → s.Holds k id → k = j

theorem IdsApart.mono {s s' : Threads cfg κ σ} (hs : s.IdsApart)
    (hshort : ∀ k conn, s'.conn k = .takeover conn ∨ s'.conn k = .assignId conn →
      conn.clientId.length < MQTT_CLIENT_ID_MAX)
    (hholds : ∀ id, id ≠ [] → ∀ k, s'.Holds k id → s.Holds k id)
    (hwriting : ∀ id, id ≠ [] → ∀ k, s'.Writing k id → s.Writing k id) : s'.IdsApart where
  short := hshort
  holders id hid j k hj hk := hs.holders id hid j k (hholds id hid j hj) (hholds id hid k hk)
  writers id hid j k hj hk := hs.writers id hid j k (hwriting id hid j hj) (hwriting id hid k hk)
  apart id hid j k hj hk := hs.apart id hid j k (hwriting id hid j hj) (hholds id hid k hk)

variable [DecidableEq κ]

/-- The two places of a thread that matter here. -/
theorem connStep_pc {env : Env κ} {b : Broker cfg κ} {me : κ} {pc pc' : ConnPc cfg}
    {h : Handled cfg κ} (hnext : connStep env b me pc = some (h, pc')) (conn : MqttConnect) :
    pc' ≠ .takeover conn ∧ (pc' = .assignId conn → pc = .takeover conn) := by
  cases pc with
  | takeover conn' =>
      cases hnext
      exact ⟨by simp, fun heq ↦ by rw [ConnPc.assignId.inj heq]⟩
  | connack sess present =>
      cases hnext
      rcases sess with - | s <;> cases present <;> simp [ConnPc.afterConnack]
  | restore | will | saveInflight =>
      simp only [connStep] at hnext
      split_ifs at hnext <;> cases hnext <;> simp
  | loop | collect =>
      cases hnext
      split_ifs <;> simp
  | lookup subs =>
      cases hnext
      split <;> simp
  | unsubscribe =>
      obtain ⟨r, -, heq⟩ := Option.map_eq_some_iff.mp hnext
      cases heq
      split_ifs <;> simp
  | _ => cases hnext <;> simp

/-- `client_takeover` of `k` leaves no other holder of the client id. -/
theorem holds_takeover {s : Threads cfg κ σ} {k j : κ} {id id' : CStr} {pc : ConnPc cfg}
    (h : (s.goTo k (clientTakeover s.broker k id) pc).Holds j id') :
    s.Holds j id' ∧ (j = k ∨ id' ≠ id) := by
  obtain ⟨hstate, hid⟩ := h
  simp only [goTo_broker, clientTakeover] at hstate hid
  split_ifs at hstate hid with hkick
  refine ⟨⟨hstate, hid⟩, ?_⟩
  by_contra hno
  obtain ⟨hjk, hne⟩ := not_or.mp hno
  rw [not_not] at hne
  exact hkick ⟨hjk, hstate, by rw [hid, hne]⟩

theorem writing_takeover {s : Threads cfg κ σ} {k j : κ} {conn : MqttConnect} {id : CStr}
    (h : (s.goTo k (clientTakeover s.broker k conn.clientId) (.assignId conn)).Writing j id) :
    (j ≠ k ∧ s.Writing j id) ∨
      j = k ∧ id = conn.clientId ∧ (s.broker.clients k).state = .connected := by
  obtain ⟨hstate, conn', hpc, hid⟩ := h
  have hup : (s.broker.clients j).state = .connected := by
    simp only [goTo_broker, clientTakeover] at hstate
    split_ifs at hstate
    exact hstate
  by_cases hjk : j = k
  · subst hjk
    rw [goTo_conn] at hpc
    obtain rfl := ConnPc.assignId.inj hpc
    exact Or.inr ⟨rfl, hid.symm, hup⟩
  · refine Or.inl ⟨hjk, hup, conn', ?_, hid⟩
    simpa [goTo, hjk] using hpc

variable [DecidableEq σ]

/-- A thread stands before `client_takeover` with a checked CONNECT, and before
the assignment of the id only after `client_takeover`. -/
theorem step_pc {s s' : Threads cfg κ σ} {e : ThreadEvent κ σ} (h : s.step e = some s') (j : κ)
    (conn : MqttConnect) :
    (s'.conn j = .takeover conn →
      s.conn j = .takeover conn ∨ conn.clientId.length < MQTT_CLIENT_ID_MAX) ∧
    (s'.conn j = .assignId conn →
      s.conn j = .assignId conn ∨ ∃ env, e = .next j env ∧ s.conn j = .takeover conn) := by
  have hgoTo : ∀ (k : κ) (b : Broker cfg κ) (pc : ConnPc cfg),
      (pc = .takeover conn → conn.clientId.length < MQTT_CLIENT_ID_MAX) →
      (pc = .assignId conn → ∃ env, e = .next k env ∧ s.conn k = .takeover conn) →
      ((s.goTo k b pc).conn j = .takeover conn →
        s.conn j = .takeover conn ∨ conn.clientId.length < MQTT_CLIENT_ID_MAX) ∧
      ((s.goTo k b pc).conn j = .assignId conn →
        s.conn j = .assignId conn ∨ ∃ env, e = .next j env ∧ s.conn j = .takeover conn) := by
    intro k b pc htake hassign
    by_cases hj : j = k
    · subst hj
      rw [goTo_conn]
      exact ⟨fun hpc ↦ Or.inr (htake hpc), fun hpc ↦ Or.inr (hassign hpc)⟩
    · have hconn : (s.goTo k b pc).conn j = s.conn j := Function.update_of_ne hj _ _
      rw [hconn]
      exact ⟨Or.inl, Or.inl⟩
  cases step_cases h with
  | alloc k fd => exact hgoTo k (clientAlloc s.broker k fd) .waiting (by simp) (by simp)
  | notConnect k => exact hgoTo k _ .closeFd (by simp) (by simp)
  | connect k env pkt conn' hpc hcheck =>
      refine hgoTo k _ (.takeover conn') (fun heq ↦ ?_) (by simp)
      obtain rfl := ConnPc.takeover.inj heq
      exact (connectCheck_ok hcheck).clientId_lt
  | reject k => exact hgoTo k _ .loop (by simp) (by simp)
  | late k => exact hgoTo k _ .closeFd (by simp) (by simp)
  | publishPacket k env pkt b pub ack => exact hgoTo k b (.publish pub ack) (by simp) (by simp)
  | packet k => exact hgoTo k _ .loop (by simp) (by simp)
  | tick k => exact hgoTo k _ .loop (by simp) (by simp)
  | leave k => exact hgoTo k _ .closeFd (by simp) (by simp)
  | next k env h' pc hjob hnext =>
      obtain ⟨hne, hassign⟩ := connStep_pc hnext conn
      exact hgoTo k _ pc (fun heq ↦ absurd heq hne) fun heq ↦ ⟨env, rfl, hassign heq⟩
  | publish k env pub ack s' hpc hbegin =>
      rw [(begin_frame hbegin).1]
      exact hgoTo k _ (.reply ack) (by simp) (by simp)
  | will k env s' hpc hwill hbegin =>
      rw [(begin_frame hbegin).1]
      exact hgoTo k _ .clearWill (by simp) (by simp)
  | foreign t env pub s' hjob hbegin =>
      rw [(begin_frame hbegin).1]
      exact ⟨Or.inl, Or.inl⟩
  | send | offline => exact ⟨Or.inl, Or.inl⟩

theorem IdsApart.short_step {s s' : Threads cfg κ σ} {e : ThreadEvent κ σ} (hs : s.IdsApart)
    (h : s.step e = some s') (k : κ) (conn : MqttConnect)
    (hpc : s'.conn k = .takeover conn ∨ s'.conn k = .assignId conn) :
    conn.clientId.length < MQTT_CLIENT_ID_MAX := by
  obtain ⟨htake, hassign⟩ := step_pc h k conn
  rcases hpc with hpc | hpc
  · exact (htake hpc).elim (fun h ↦ hs.short k conn (Or.inl h)) id
  · rcases hassign hpc with hpc | ⟨-, -, hpc⟩
    · exact hs.short k conn (Or.inr hpc)
    · exact hs.short k conn (Or.inl hpc)

/-- The scan of `client_takeover`. -/
theorem IdsApart.takeover {s s' : Threads cfg κ σ} {k : κ} {env : Env κ} {conn : MqttConnect}
    (hs : s.IdsApart) (hpc : s.conn k = .takeover conn) (halone : s.ScansAlone (.next k env))
    (h : s.step (.next k env) = some s') : s'.IdsApart := by
  have hshort := hs.short_step h
  have halone := halone k env conn rfl hpc
  cases step_cases h with
  | next _ _ h' pc hjob hnext =>
      rw [hpc] at hnext
      cases hnext
      refine ⟨hshort, fun id hid i j hi hj ↦ ?_, fun id hid i j hi hj ↦ ?_,
        fun id hid i j hi hj ↦ ?_⟩
      · exact hs.holders id hid i j (holds_takeover hi).1 (holds_takeover hj).1
      · rcases writing_takeover hi with ⟨hik, hi'⟩ | ⟨hik, hidi, hup⟩ <;>
          rcases writing_takeover hj with ⟨hjk, hj'⟩ | ⟨hjk, hidj, hup⟩
        · exact hs.writers id hid i j hi' hj'
        · exact absurd (hidj ▸ hi') (halone (hidj ▸ hid) hup i hik)
        · exact absurd (hidi ▸ hj') (halone (hidi ▸ hid) hup j hjk)
        · exact hik.trans hjk.symm
      · obtain ⟨hj', hkicked⟩ := holds_takeover hj
        rcases writing_takeover hi with ⟨-, hi'⟩ | ⟨hik, hidi, -⟩
        · exact hs.apart id hid i j hi' hj'
        · exact (hkicked.resolve_right fun hne ↦ hne hidi).trans hik.symm

/-- The assignment of the client id. -/
theorem IdsApart.assignId {s s' : Threads cfg κ σ} {k : κ} {env : Env κ} {conn : MqttConnect}
    (hs : s.IdsApart) (hpc : s.conn k = .assignId conn)
    (h : s.step (.next k env) = some s') : s'.IdsApart := by
  have hshort := hs.short_step h
  have hlen := hs.short k conn (Or.inr hpc)
  cases step_cases h with
  | next _ _ h' pc hjob hnext =>
      rw [hpc] at hnext
      cases hnext
      have hholds : ∀ {id : CStr} {j : κ}, (s.goTo k (s.broker.updateClient k (·.assignId conn))
          (.assignRest conn)).Holds j id → (j ≠ k ∧ s.Holds j id) ∨ j = k ∧ s.Writing k id := by
        intro id j hj
        obtain ⟨hstate, hid⟩ := hj
        by_cases hjk : j = k
        · subst hjk
          simp only [goTo_broker, Broker.updateClient, Function.update_self] at hstate hid
          refine Or.inr ⟨rfl, hstate, conn, hpc, ?_⟩
          rw [← hid, Client.assignId, List.take_of_length_le (by
            simp only [MQTT_CLIENT_ID_MAX] at hlen ⊢; omega)]
        · simp only [goTo_broker, Broker.updateClient, Function.update_of_ne hjk] at hstate hid
          exact Or.inl ⟨hjk, hstate, hid⟩
      have hwriting : ∀ {id : CStr} {j : κ}, (s.goTo k (s.broker.updateClient k (·.assignId conn))
          (.assignRest conn)).Writing j id → j ≠ k ∧ s.Writing j id := by
        intro id j hj
        obtain ⟨hstate, conn', hconn, hid⟩ := hj
        have hjk : j ≠ k := by
          rintro rfl
          rw [goTo_conn] at hconn
          cases hconn
        simp only [goTo_broker, Broker.updateClient, Function.update_of_ne hjk] at hstate
        exact ⟨hjk, hstate, conn', by simpa [goTo, hjk] using hconn, hid⟩
      refine ⟨hshort, fun id hid i j hi hj ↦ ?_, fun id hid i j hi hj ↦ ?_,
        fun id hid i j hi hj ↦ ?_⟩
      · rcases hholds hi with ⟨-, hi'⟩ | ⟨hik, hi'⟩ <;>
          rcases hholds hj with ⟨-, hj'⟩ | ⟨hjk, hj'⟩
        · exact hs.holders id hid i j hi' hj'
        · exact (hs.apart id hid k i hj' hi').trans hjk.symm
        · exact hik.trans (hs.apart id hid k j hi' hj').symm
        · exact hik.trans hjk.symm
      · exact hs.writers id hid i j (hwriting hi).2 (hwriting hj).2
      · obtain ⟨hik, hi'⟩ := hwriting hi
        rcases hholds hj with ⟨-, hj'⟩ | ⟨-, hj'⟩
        · exact hs.apart id hid i j hi' hj'
        · exact absurd (hs.writers id hid i k hi' hj') hik

/-- The step lemma: a step keeps the ids apart if its scan is alone. -/
theorem IdsApart.step [Inhabited κ] {s s' : Threads cfg κ σ} {e : ThreadEvent κ σ} (hs : s.IdsApart)
    (halone : s.ScansAlone e) (h : s.step e = some s') : s'.IdsApart := by
  by_cases htake : ∃ k env conn, e = .next k env ∧ s.conn k = .takeover conn
  · obtain ⟨k, env, conn, rfl, hpc⟩ := htake
    exact hs.takeover hpc halone h
  have hconn : ∀ j conn, s'.conn j = .assignId conn → s.conn j = .assignId conn :=
    fun j conn hpc ↦ ((step_pc h j conn).2 hpc).resolve_right fun ⟨env, he, hpc⟩ ↦
      htake ⟨j, env, conn, he, hpc⟩
  have hquiet : (∀ k, (s'.broker.clients k).state = .connected →
      (s.broker.clients k).state = .connected ∧
        (s'.broker.clients k).clientId = (s.broker.clients k).clientId) → s'.IdsApart := by
    intro hkept
    have hholds : ∀ id, id ≠ [] → ∀ k, s'.Holds k id → s.Holds k id := fun id _ k hk ↦
      ⟨(hkept k hk.1).1, (hkept k hk.1).2 ▸ hk.2⟩
    refine hs.mono (hs.short_step h) hholds fun id hid k hk ↦ ?_
    obtain ⟨hstate, conn, hpc, hid⟩ := hk
    exact ⟨(hkept k hstate).1, conn, hconn k conn hpc, hid⟩
  rcases ThreadRule.step idKept_rule h with hkept | ⟨k, fd, rfl⟩ | ⟨k, env, rfl, hmarked⟩
  · refine hquiet fun k hup ↦ ⟨?_, (hkept k).clientId⟩
    rw [← (hkept k).state_of_ne (by simp [hup]), hup]
  · -- a new connection has the empty client id
    have hshort := hs.short_step h
    cases step_cases h with
    | alloc _ _ hfree =>
        have hclients : ∀ j, j ≠ k →
            (clientAlloc s.broker k fd).clients j = s.broker.clients j := fun j hjk ↦
          Function.update_of_ne hjk _ _
        refine hs.mono hshort (fun id hid j hj ↦ ?_) fun id hid j hj ↦ ?_
        · have hjk : j ≠ k := by
            rintro rfl
            have hempty := hj.2
            simp only [goTo_broker, clientAlloc, Broker.updateClient, Function.update_self] at hempty
            exact hid hempty.symm
          exact ⟨(hclients j hjk) ▸ hj.1, (hclients j hjk) ▸ hj.2⟩
        · obtain ⟨hstate, conn, hpc, hid⟩ := hj
          have hjk : j ≠ k := by
            rintro rfl
            exact absurd (hpc.symm.trans (goTo_conn s j (clientAlloc s.broker j fd) .waiting)) (by simp)
          exact ⟨(hclients j hjk) ▸ hstate, conn, hconn j conn hpc, hid⟩
  · cases hpc : s.conn k with
    | takeover conn => exact absurd ⟨k, env, conn, rfl, hpc⟩ htake
    | assignId conn => exact hs.assignId hpc h
    | release =>
        cases step_cases h with
        | next _ _ h' pc hjob hnext =>
            rw [hpc] at hnext
            cases hnext
            refine hquiet fun j hup ↦ ?_
            have hjk : j ≠ k := by
              rintro rfl
              simp [Broker.updateClient] at hup
            simp only [goTo_broker, Broker.updateClient, Function.update_of_ne hjk] at hup ⊢
            exact ⟨hup, trivial⟩
    | _ =>
        rw [hpc] at hmarked
        exact hmarked.elim

/-- In every run in which no connection scans for a client id that another one
is about to write, connections that are up have different client ids. -/
theorem oneHolder_of_scansAlone [Inhabited κ] {s : Threads cfg κ σ}
    (h : ReachBy ScansAlone s) : s.OneHolder := by
  suffices s.IdsApart from this.holders
  induction h with
  | init =>
      have hdown : ∀ k, ((init cfg κ σ).broker.clients k).state ≠ .connected := fun k h ↦
        by cases h
      refine ⟨fun k conn h ↦ ?_, fun _ _ j _ hj ↦ absurd hj.1 (hdown j),
        fun _ _ j _ hj ↦ absurd hj.1 (hdown j), fun _ _ j _ hj ↦ absurd hj.1 (hdown j)⟩
      rcases h with h | h <;> cases h
  | step _ halone hstep ih => exact ih.step halone hstep

end Threads

namespace Sample

open Threads

/-- Two CONNECTs with one client id: both scan before either writes the id. -/
def bothScan : List (ThreadEvent ℕ Unit) :=
  [.alloc 0 5, .alloc 1 6, .connect 0 env connectPkt, .connect 1 env connectPkt, .next 0 env,
    .next 1 env] ++ List.replicate 5 (.next 0 env) ++ List.replicate 8 (.next 1 env)

theorem bothScan_isSome : ((init Config.posix ℕ Unit).run bothScan).isSome = true := by decide

/-- Steps of slot 0 while no other connection has begun. -/
theorem scansAlone_first {s : Threads Config.posix ℕ Unit} (hidle : ∀ j, j ≠ 0 → s.conn j = .idle)
    {e : ThreadEvent ℕ Unit} (he : ∀ k env, e = .next k env → k = 0) : s.ScansAlone e := by
  intro k env conn hk _ _ _ j hj hwriting
  obtain ⟨-, conn', hpc, -⟩ := hwriting
  obtain rfl := he k env hk
  rw [hidle j hj] at hpc
  cases hpc

end Sample

/-- The statement for one connection that has written its client id. -/
theorem oneHolder_of_scansAlone_first : ∃ s : Threads Config.posix ℕ Unit,
    Threads.ReachBy Threads.ScansAlone s ∧ s.Holds 0 [0x61] ∧ s.OneHolder := by
  have hidle : ∀ (s : Threads Config.posix ℕ Unit) (b : Broker Config.posix ℕ)
      (pc : ConnPc Config.posix), (∀ j, j ≠ 0 → s.conn j = .idle) →
        ∀ j, j ≠ 0 → (s.goTo 0 b pc).conn j = .idle := fun s b pc h j hj ↦ by
    rw [← h j hj]
    exact Function.update_of_ne hj _ _
  have r₀ : Threads.ReachBy Threads.ScansAlone (Threads.init Config.posix ℕ Unit) := .init
  have h₀ : ∀ j, j ≠ 0 → (Threads.init Config.posix ℕ Unit).conn j = .idle := fun _ _ ↦ rfl
  have h₁ := hidle _ (clientAlloc (Threads.init Config.posix ℕ Unit).broker 0 5) .waiting h₀
  have r₁ := r₀.step (Sample.scansAlone_first h₀ (e := .alloc 0 5) (by simp)) rfl
  have r₂ := r₁.step (Sample.scansAlone_first h₁
    (e := .connect 0 Sample.env Sample.connectPkt) (by simp)) rfl
  have h₂ := hidle _ (clientAlloc (Threads.init Config.posix ℕ Unit).broker 0 5)
    (.takeover Sample.conn) h₁
  have hslot : ∀ k env, (ThreadEvent.next 0 Sample.env : ThreadEvent ℕ Unit) = .next k env → k = 0 :=
    fun k env h ↦ by
      cases h
      rfl
  have r₃ := r₂.step (Sample.scansAlone_first h₂ hslot) rfl
  have r₄ := r₃.step (Sample.scansAlone_first (hidle _ _ _ h₂) hslot) rfl
  exact ⟨_, r₄, ⟨by decide, by decide⟩, Threads.oneHolder_of_scansAlone r₄⟩

/-- Both connections are up under one client id after their CONNECTs. -/
theorem two_holders : ∃ s : Threads Config.posix ℕ Unit, Threads.ReachBy (fun _ _ ↦ True) s ∧
    s.conn 0 = .recv ∧ s.conn 1 = .recv ∧ s.Holds 0 [0x61] ∧ s.Holds 1 [0x61] ∧
      ¬ s.OneHolder := by
  refine ⟨_, Threads.ReachBy.init.run (fun _ _ _ ↦ trivial) (Option.some_get Sample.bothScan_isSome).symm,
    rfl, rfl, ⟨by decide, by decide⟩, ⟨by decide, by decide⟩, fun h ↦ ?_⟩
  exact absurd (h [0x61] (by decide) 0 1 ⟨by decide, by decide⟩ ⟨by decide, by decide⟩) (by decide)

end MqttBroker
