import MqttBroker.Client.Takeover
import MqttBroker.Lib.Observer

/-!
# What happens to one connection

The steps of the other threads leave a connection alone but for sending to it
and taking its client id over.  An observer notes, for each slot of the pool,
what its present connection has received and what was published for it.
-/

namespace MqttBroker

variable {cfg : Config} {κ σ : Type}

/-- The slot whose thread takes the step; publishes in steps belong to none. -/
def ThreadEvent.slot : ThreadEvent κ σ → Option κ
  | .alloc k _ | .connect k _ _ | .packet k _ _ | .tick k _ | .leave k | .next k _ |
    .publish k _ => some k
  | .foreign _ _ _ | .send _ _ | .offline _ => none

/-! ## The steps of other threads -/

section

variable [DecidableEq κ]

open Client

theorem sentTo_update {clients : κ → Client} {k : κ} {c : Client} (h : SentTo (clients k) c)
    (j : κ) : SentTo (clients j) (Function.update clients k c j) := sentTo_rule.update h j

theorem sentTo_updateClient_ne {b : Broker cfg κ} {me j : κ} (hj : j ≠ me) (f : Client → Client) :
    SentTo (b.clients j) ((b.updateClient me f).clients j) := by
  have hsame : (b.updateClient me f).clients j = b.clients j := Function.update_of_ne hj _ _
  rw [hsame]
  exact .refl _

theorem SendOp.run_sentTo (env : Env κ) (clients : κ → Client) (op : SendOp κ) (j : κ) :
    SentTo (clients j) (op.run env clients j) := by
  cases op with
  | send c frame => exact sentTo_update (clientSend_sentTo _ _) j
  | store c id frame qos => exact sentTo_update (inflightStore_sentTo _ id frame qos env.now) j

/-- What a connection keeps while its packets are handled. -/
structure Client.Stays (c c' : Client) : Prop where
  clientId : c'.clientId = c.clientId
  cleanSession : c'.cleanSession = c.cleanSession
  keepalive : c'.keepalive = c.keepalive
  lastSeenMs : c'.lastSeenMs = c.lastSeenMs
  will : c'.will = c.will
  hasWill : c'.hasWill = c.hasWill

omit [DecidableEq κ] in
theorem Client.SentTo.stays {c c' : Client} (h : SentTo c c') : c.Stays c' :=
  ⟨h.clientId, h.cleanSession, h.keepalive, h.lastSeenMs, h.will, h.hasWill⟩

omit [DecidableEq κ] in
theorem Client.Stays.refl (c : Client) : c.Stays c := ⟨rfl, rfl, rfl, rfl, rfl, rfl⟩

omit [DecidableEq κ] in
theorem Client.Stays.trans {a b c : Client} (h : a.Stays b) (h' : b.Stays c) : a.Stays c where
  clientId := h'.clientId.trans h.clientId
  cleanSession := h'.cleanSession.trans h.cleanSession
  keepalive := h'.keepalive.trans h.keepalive
  lastSeenMs := h'.lastSeenMs.trans h.lastSeenMs
  will := h'.will.trans h.will
  hasWill := h'.hasWill.trans h.hasWill

omit [DecidableEq κ] in
theorem Client.Assign.stays {c c' : Client} (h : Assign c c') : c.Stays c' := by
  cases h <;> exact ⟨rfl, rfl, rfl, rfl, rfl, rfl⟩

theorem stays_updateClient {b : Broker cfg κ} {me : κ} {f : Client → Client}
    (h : (b.clients me).Stays (f (b.clients me))) :
    (b.clients me).Stays ((b.updateClient me f).clients me) := by
  have hself : (b.updateClient me f).clients me = f (b.clients me) := Function.update_self _ _ _
  rwa [hself]

theorem stays_rule (me : κ) : DispatchRule me fun b b' : Broker cfg κ ↦
    (b.clients me).Stays (b'.clients me) where
  refl _ := .refl _
  trans := .trans
  subscribe _ _ _ _ _ _ := .refl _
  unsubscribe _ _ _ _ := .refl _
  assign _ _ hf := stays_updateClient (hf _).stays
  send _ sendOk := stays_updateClient (clientSend_sentTo _ sendOk).stays
  ack _ id := stays_updateClient (inflightAck_sentTo _ id).stays
  pubrec _ id now sendOk := stays_updateClient (pubrec_sentTo _ id now sendOk).stays
  retained b filter qos now sendOk :=
    stays_updateClient (topicDeliverRetained_sentTo b.retains _ filter qos now sendOk).stays
  publish _ _ _ _ _ hrun := ((topicPublishInternal_frame hrun).2 me).stays

/-- A packet is seen, and a DISCONNECT drops the will. -/
theorem dispatch_stays {env : Env κ} {b : Broker cfg κ} {me : κ} {pkt : MqttPacket}
    {h : Handled cfg κ} (hrun : dispatch env b me pkt = some h) :
    Stays { b.clients me with
      lastSeenMs := env.now
      hasWill := (b.clients me).hasWill &&
        !(pkt.headerOk && pkt.type = PacketType.disconnect) } (h.broker.clients me) := by
  have hself : ∀ (b : Broker cfg κ) (f : Client → Client),
      (b.updateClient me f).clients me = f (b.clients me) := fun _ _ ↦ Function.update_self _ _ _
  unfold dispatch at hrun
  rcases ite_eq_iff.mp hrun with ⟨hbad, hrun⟩ | ⟨hok, hrun⟩
  · cases hrun
    have hclose := (stays_rule me).close (b.updateClient me fun c ↦ { c with lastSeenMs := env.now })
    rw [hself] at hclose
    simpa [hbad] using hclose
  by_cases hdisc : pkt.type = PacketType.disconnect
  · rw [dispatchType_disconnect hdisc] at hrun
    cases hrun
    simp only [handleDisconnect, Broker.close, hself]
    constructor <;> simp_all
  · have hstays := (stays_rule me).dispatchType hdisc hrun
    rw [hself] at hstays
    simpa [hdisc] using hstays

theorem publishBegin_stays {env : Env κ} {b b' : Broker cfg κ} {me : κ} {pkt : MqttPacket}
    {pub : MqttPublish} {ack : Option Bytes}
    (h : publishBegin env b me pkt = some (b', pub, ack)) :
    Stays { b.clients me with lastSeenMs := env.now } (b'.clients me) := by
  have hself : ∀ (b : Broker cfg κ) (f : Client → Client),
      (b.updateClient me f).clients me = f (b.clients me) := fun _ _ ↦ Function.update_self _ _ _
  unfold publishBegin at h
  rcases ite_eq_iff.mp h with ⟨-, h⟩ | ⟨-, h⟩
  · cases h
  split at h
  · cases h
  dsimp only at h
  rcases ite_eq_iff.mp h with ⟨-, h⟩ | ⟨-, h⟩
  · cases h
  rcases ite_eq_iff.mp h with ⟨-, h⟩ | ⟨-, h⟩
  · split at h
    · cases h
      rw [hself, hself]
      exact ⟨rfl, rfl, rfl, rfl, rfl, rfl⟩
    · cases h
    · cases h
  · cases h
    rw [hself]
    exact .refl _

theorem Client.inflightRetry_stays (c : Client) (now : ℤ) (sendOk : Bool) :
    c.Stays (c.inflightRetry now sendOk).1 := by
  unfold inflightRetry
  dsimp only
  split_ifs
  · exact ⟨rfl, rfl, rfl, rfl, rfl, rfl⟩
  · have hsend := (clientSend_sentTo
      { c with inflight := fun i ↦ (retryEntry now (c.inflight i)).1 } sendOk).stays
    exact ⟨hsend.clientId, hsend.cleanSession, hsend.keepalive, hsend.lastSeenMs, hsend.will,
      hsend.hasWill⟩

/-- What a step of `handle_connect` or `client_free` makes of its own connection. -/
theorem connStep_stays {env : Env κ} {b : Broker cfg κ} {me : κ} {pc pc' : ConnPc cfg}
    {h : Handled cfg κ} (hnext : connStep env b me pc = some (h, pc')) :
    (b.clients me).Stays (h.broker.clients me) ∨
      (∃ conn, pc = .assignId conn ∧ h.broker.clients me = (b.clients me).assignId conn) ∨
      (∃ conn, pc = .assignRest conn ∧ h.broker.clients me = (b.clients me).assignRest conn) ∨
      pc = .clearWill ∧ h.broker.clients me = { b.clients me with hasWill := false } := by
  have hself : ∀ f : Client → Client, (b.updateClient me f).clients me = f (b.clients me) :=
    fun _ ↦ Function.update_self _ _ _
  have hreply : ∀ frame, (b.clients me).Stays
      ((Handled.reply env me frame ⟨b, []⟩).broker.clients me) :=
    fun frame ↦ (stays_rule me).reply env frame ⟨b, []⟩
  cases pc with
  | takeover conn =>
      cases hnext
      rw [clientTakeover_me]
      exact Or.inl (.refl _)
  | assignId conn =>
      cases hnext
      exact Or.inr (Or.inl ⟨conn, rfl, hself (·.assignId conn)⟩)
  | assignRest conn =>
      cases hnext
      exact Or.inr (Or.inr (Or.inl ⟨conn, rfl, hself (·.assignRest conn)⟩))
  | connack sess present => cases hnext; exact Or.inl (hreply _)
  | reply ack => cases hnext; exact Or.inl (hreply ack)
  | restore i n =>
      simp only [connStep] at hnext
      split at hnext
      · cases hnext
        unfold restoreOne
        split_ifs <;> exact Or.inl (.refl _)
      · cases hnext
        exact Or.inl (.refl _)
  | drain i =>
      cases hnext
      have hdrain := sentTo_rule.drain (s := b.session i) (fun _ _ ↦ trivial) (b.clients me) env.now
        (env.sendOk me)
      have hclient : (drainSession env me i ⟨b, []⟩).broker.clients me =
          ((b.session i).drain (b.clients me) env.now (env.sendOk me)).2.1 :=
        Function.update_self _ _ _
      exact Or.inl (hclient ▸ hdrain.stays)
  | closeFd =>
      cases hnext
      exact Or.inl (stays_updateClient (f := (·.closeFd)) ⟨rfl, rfl, rfl, rfl, rfl, rfl⟩)
  | release =>
      cases hnext
      exact Or.inl (stays_updateClient (f := fun c ↦ { c with state := .free })
        ⟨rfl, rfl, rfl, rfl, rfl, rfl⟩)
  | will =>
      simp only [connStep] at hnext
      split_ifs at hnext
      cases hnext
      exact Or.inl (.refl _)
  | clearWill =>
      cases hnext
      exact Or.inr (Or.inr (Or.inr ⟨rfl, hself fun c ↦ { c with hasWill := false }⟩))
  | saveInflight i n =>
      simp only [connStep] at hnext
      split at hnext <;> cases hnext <;> exact Or.inl (.refl _)
  | unsubscribe =>
      obtain ⟨r, -, heq⟩ := Option.map_eq_some_iff.mp hnext
      cases heq
      exact Or.inl (.refl _)
  | delete =>
      cases hnext
      dsimp only
      split_ifs <;> exact Or.inl (.refl _)
  | openSession | online | loop | collect | lookup | saveSubs => cases hnext; exact Or.inl (.refl _)
  | idle | waiting | recv | publish => cases hnext

/-- The places of `client_free`, from its call on, and of a slot without a thread. -/
def ConnPc.Freeing : ConnPc cfg → Prop
  | .closeFd | .will | .clearWill | .collect | .lookup _ | .saveSubs _ _ | .saveInflight _ _ |
    .unsubscribe | .delete | .release | .idle => True
  | _ => False

/-- Where `client_free` is called from, a thread goes if its connection is not up. -/
theorem connStep_pc_cases {env : Env κ} {b : Broker cfg κ} {me : κ}
    {pc pc' : ConnPc cfg} {h : Handled cfg κ} (hnext : connStep env b me pc = some (h, pc')) :
    pc' ≠ .waiting ∧ (pc.Freeing → pc'.Freeing) ∧
      (pc = .loop → (b.clients me).state ≠ .connected → pc'.Freeing) := by
  cases pc with
  | takeover | assignId | assignRest | openSession | online | drain | reply | saveSubs | delete
  | closeFd | clearWill | release =>
      cases hnext
      exact ⟨by simp, by simp [ConnPc.Freeing], by simp⟩
  | connack sess present =>
      cases hnext
      rcases sess with - | i <;> cases present <;>
        exact ⟨by simp [ConnPc.afterConnack], by simp [ConnPc.Freeing], by simp⟩
  | restore i n | saveInflight i n =>
      simp only [connStep] at hnext
      split at hnext <;> cases hnext <;> exact ⟨by simp, by simp [ConnPc.Freeing], by simp⟩
  | loop =>
      cases hnext
      refine ⟨by split_ifs <;> simp, by simp [ConnPc.Freeing], fun _ hdown ↦ ?_⟩
      rw [if_neg hdown]
      trivial
  | will =>
      simp only [connStep] at hnext
      split_ifs at hnext
      cases hnext
      exact ⟨by simp, by simp [ConnPc.Freeing], by simp⟩
  | collect =>
      cases hnext
      exact ⟨by split_ifs <;> simp, fun _ ↦ by split_ifs <;> trivial, by simp⟩
  | lookup subs =>
      cases hnext
      exact ⟨by split <;> simp, fun _ ↦ by split <;> trivial, by simp⟩
  | unsubscribe =>
      obtain ⟨r, -, heq⟩ := Option.map_eq_some_iff.mp hnext
      cases heq
      exact ⟨by split_ifs <;> simp, fun _ ↦ by split_ifs <;> trivial, by simp⟩
  | idle | waiting | recv | publish => cases hnext

/-- Another thread only sends to a connection. -/
theorem sentTo_rule_ne (me : κ) : ThreadRule me fun b b' : Broker cfg κ ↦
    ∀ j, j ≠ me → SentTo (b.clients j) (b'.clients j) where
  refl _ _ _ := .refl _
  trans h h' j hj := (h j hj).trans (h' j hj)
  subscribe _ _ _ _ _ _ _ _ := .refl _
  restore _ _ _ _ _ := .refl _
  unsubscribe _ _ _ _ _ _ := .refl _
  unsubscribeSection _ _ _ _ _ := .refl _
  mark _ f _ _ hj := sentTo_updateClient_ne hj f
  send _ _ _ hj := sentTo_updateClient_ne hj _
  ack _ _ _ hj := sentTo_updateClient_ne hj _
  pubrec _ _ _ _ _ hj := sentTo_updateClient_ne hj _
  retained _ _ _ _ _ _ hj := sentTo_updateClient_ne hj _
  publish _ _ _ _ _ hrun j _ := (topicPublishInternal_frame hrun).2 j
  sessions _ _ _ _ := .refl _
  drain _ _ _ _ _ hj := sentTo_updateClient_ne hj _
  retry _ _ _ _ hj := sentTo_updateClient_ne hj _
  assignRest _ _ _ hj := sentTo_updateClient_ne hj _
  closeFd _ _ hj := sentTo_updateClient_ne hj _
  locked h j _ := sentTo_rule.locked h j
  op env b op j _ := op.run_sentTo env b.clients j

theorem connStep_sentTo_ne {env : Env κ} {b : Broker cfg κ} {me j : κ} (hj : j ≠ me)
    {pc pc' : ConnPc cfg} {h : Handled cfg κ} (hnext : connStep env b me pc = some (h, pc')) :
    SentTo (b.clients j) (h.broker.clients j) := by
  rcases (sentTo_rule_ne me).connStep hnext with hothers | hmarked
  · exact hothers j hj
  cases pc with
  | takeover conn =>
      cases hnext
      dsimp only [clientTakeover]
      split_ifs
      · exact ⟨rfl, rfl, rfl, rfl, rfl, rfl, rfl, rfl⟩
      · exact .refl _
  | assignId conn =>
      cases hnext
      exact sentTo_updateClient_ne hj (·.assignId conn)
  | release =>
      cases hnext
      exact sentTo_updateClient_ne hj fun c ↦ { c with state := .free }
  | _ => exact absurd hmarked id

end

namespace Threads

open Client

variable [DecidableEq κ] [DecidableEq σ] {s s' : Threads cfg κ σ} {e : ThreadEvent κ σ}

/-- What a step leaves of a connection whose thread does not take it. -/
structure Untouched (s s' : Threads cfg κ σ) (k : κ) : Prop where
  client : SentTo (s.broker.clients k) (s'.broker.clients k)
  conn : s'.conn k = s.conn k
  gen : s'.gen k = s.gen k

theorem step_untouched (h : s.step e = some s') {k : κ} (hk : e.slot ≠ some k) :
    Untouched s s' k := by
  have hne : ∀ {j : κ}, e.slot = some j → k ≠ j := fun hj hkj ↦ hk (hkj ▸ hj)
  have hgoTo : ∀ {j : κ} (b : Broker cfg κ) (pc : ConnPc cfg), k ≠ j →
      SentTo (s.broker.clients k) (b.clients k) → Untouched s (s.goTo j b pc) k :=
    fun b pc hkj hb ↦ ⟨hb, Function.update_of_ne hkj _ _, rfl⟩
  have hbegin : ∀ {a : Threads cfg κ σ} {who : κ ⊕ σ} {env : Env κ} {pub : MqttPublish},
      Untouched s a k → a.begin who env pub = some s' → Untouched s s' k := by
    intro a who env pub ha hb
    obtain ⟨hconn, hgen⟩ := begin_frame hb
    obtain ⟨r, hlocked, rfl⟩ := Option.map_eq_some_iff.mp hb
    exact ⟨ha.client.trans (sentTo_rule.locked hlocked k), ha.conn, ha.gen⟩
  cases step_cases h with
  | alloc j fd =>
      have hkj := hne (j := j) rfl
      have halloc := hgoTo (clientAlloc s.broker j fd) .waiting hkj (sentTo_updateClient_ne hkj _)
      exact ⟨halloc.client, halloc.conn, Function.update_of_ne hkj _ _⟩
  | notConnect j | connect j | leave j => exact hgoTo _ _ (hne (j := j) rfl) (.refl _)
  | reject j env pkt code hpc hcheck =>
      refine hgoTo _ _ (hne (j := j) rfl) ?_
      rw [handleConnect, hcheck]
      have hR : ThreadRule j fun b b' : Broker cfg κ ↦
        ∀ i, i ≠ j → SentTo (b.clients i) (b'.clients i) := sentTo_rule_ne j
      exact hR.trans (hR.reply env _ ⟨s.broker, []⟩) (hR.close _) k (hne (j := j) rfl)
  | late j env => exact hgoTo _ _ (hne (j := j) rfl) (sentTo_updateClient_ne (hne (j := j) rfl) _)
  | publishPacket j env pkt b pub ack hpc hb =>
      exact hgoTo b _ (hne (j := j) rfl) ((sentTo_rule_ne j).publishBegin hb k (hne (j := j) rfl))
  | packet j env pkt h' hpc hb hrun =>
      exact hgoTo h'.broker _ (hne (j := j) rfl)
        ((sentTo_rule_ne j).dispatch hrun k (hne (j := j) rfl))
  | tick j env => exact hgoTo _ _ (hne (j := j) rfl) (sentTo_updateClient_ne (hne (j := j) rfl) _)
  | next j env h' pc hjob hnext =>
      exact hgoTo h'.broker pc (hne (j := j) rfl) (connStep_sentTo_ne (hne (j := j) rfl) hnext)
  | publish j env pub ack s' hpc hb =>
      exact hbegin (hgoTo s.broker (.reply ack) (hne (j := j) rfl) (.refl _)) hb
  | will j env s' hpc hwill hb =>
      exact hbegin (hgoTo s.broker .clearWill (hne (j := j) rfl) (.refl _)) hb
  | foreign t env pub s' hjob hb => exact hbegin ⟨.refl _, rfl, rfl⟩ hb
  | send who env pub op => exact ⟨op.run_sentTo env s.broker.clients k, rfl, rfl⟩
  | offline => exact ⟨.refl _, rfl, rfl⟩

/-! ## The state of a connection -/

/-- A slot without a thread stays so until `client_alloc`. -/
theorem step_idle (h : s.step e = some s') {k : κ} (hidle : s.conn k = .idle)
    (halloc : ∀ fd, e ≠ .alloc k fd) : s'.conn k = .idle := by
  have hgoTo : ∀ (j : κ) (b : Broker cfg κ) (pc : ConnPc cfg), s.conn j ≠ .idle →
      (s.goTo j b pc).conn k = .idle := by
    intro j b pc hj
    have hkj : k ≠ j := fun hkj ↦ hj (hkj ▸ hidle)
    rw [← hidle]
    exact Function.update_of_ne hkj _ _
  cases step_cases h with
  | alloc j fd =>
      have hkj : k ≠ j := fun hkj ↦ halloc fd (hkj ▸ rfl)
      rw [← hidle]
      exact Function.update_of_ne hkj _ _
  | notConnect j env pkt hpc | connect j env pkt conn hpc | reject j env pkt code hpc
  | late j env pkt hpc | publishPacket j env pkt b pub ack hpc | packet j env pkt h' hpc
  | tick j env hpc => exact hgoTo j _ _ (by simp [hpc])
  | leave j hpc =>
      refine hgoTo j _ _ fun hj ↦ ?_
      rcases hpc with hpc | hpc <;> simp [hj] at hpc
  | next j env h' pc hjob hnext =>
      refine hgoTo j _ _ fun hj ↦ ?_
      rw [hj] at hnext
      cases hnext
  | publish j env pub ack s' hpc hbegin =>
      rw [(begin_frame hbegin).1]
      exact hgoTo j _ _ (by simp [hpc])
  | will j env s' hpc hwill hbegin =>
      rw [(begin_frame hbegin).1]
      exact hgoTo j _ _ (by simp [hpc])
  | foreign t env pub s' hjob hbegin => rwa [(begin_frame hbegin).1]
  | send | offline => exact hidle

/-- Until a slot is allocated anew, its connection's state only becomes
DISCONNECTING, and FREE when its thread ends. -/
theorem step_state [Inhabited κ] (h : s.step e = some s') {k : κ} (halloc : ∀ fd, e ≠ .alloc k fd) :
    (s'.broker.clients k).state = (s.broker.clients k).state ∨
      (s'.broker.clients k).state = .disconnecting ∨
      (s'.broker.clients k).state = .free ∧ s'.conn k = .idle := by
  rcases ThreadRule.step idKept_rule h with hkept | ⟨j, fd, rfl⟩ | ⟨j, env, rfl, hmarked⟩
  · exact (hkept k).state.imp id Or.inl
  · have hkj : k ≠ j := fun hkj ↦ halloc fd (hkj ▸ rfl)
    cases step_cases h with
    | alloc => exact Or.inl (by simp [clientAlloc, Broker.updateClient, hkj])
  · cases step_cases h with
    | next _ _ h' pc hjob hnext =>
        cases hpc : s.conn j with
        | takeover conn =>
            rw [hpc] at hnext
            cases hnext
            simp only [goTo_broker, clientTakeover]
            split_ifs
            · exact Or.inr (Or.inl rfl)
            · exact Or.inl rfl
        | assignId conn =>
            rw [hpc] at hnext
            cases hnext
            refine Or.inl ?_
            by_cases hkj : k = j
            · subst hkj
              simp [Broker.updateClient, Client.assignId]
            · simp [Broker.updateClient, hkj]
        | release =>
            rw [hpc] at hnext
            cases hnext
            by_cases hkj : k = j
            · subst hkj
              exact Or.inr (Or.inr ⟨by simp [Broker.updateClient], goTo_conn s k _ .idle⟩)
            · exact Or.inl (by simp [Broker.updateClient, hkj])
        | _ =>
            rw [hpc] at hmarked
            exact hmarked.elim

/-- A free slot has no thread. -/
theorem idle_of_free [Inhabited κ] (hs : ∀ k, (s.broker.clients k).state = .free → s.conn k = .idle)
    (h : s.step e = some s') (k : κ) (hfree : (s'.broker.clients k).state = .free) :
    s'.conn k = .idle := by
  by_cases halloc : ∃ fd, e = .alloc k fd
  · obtain ⟨fd, rfl⟩ := halloc
    cases step_cases h with
    | alloc => simp [clientAlloc, Broker.updateClient, clientAllocated] at hfree
  have hne : ∀ fd, e ≠ .alloc k fd := fun fd he ↦ halloc ⟨fd, he⟩
  rcases step_state h hne with hsame | hdown | ⟨-, hidle⟩
  · exact step_idle h (hs k (hsame ▸ hfree)) hne
  · rw [hdown] at hfree
    cases hfree
  · exact hidle

/-- A thread whose publish still has something to send is about to reply or to drop
its Will. -/
structure Settled (s : Threads cfg κ σ) : Prop where
  free : ∀ k, (s.broker.clients k).state = .free → s.conn k = .idle
  jobs : ∀ k, s.jobs (.inl k) ≠ none → s.conn k = .clearWill ∨ ∃ ack, s.conn k = .reply ack

/-- Only its own step begins a thread's publish. -/
theorem step_jobs (h : s.step e = some s') {k : κ} (hjob : s'.jobs (.inl k) ≠ none) :
    s.jobs (.inl k) ≠ none ∨
      e.slot = some k ∧ (s'.conn k = .clearWill ∨ ∃ ack, s'.conn k = .reply ack) := by
  have hbegin : ∀ {a : Threads cfg κ σ} {who : κ ⊕ σ} {env : Env κ} {pub : MqttPublish},
      a.jobs = s.jobs → a.begin who env pub = some s' → who ≠ .inl k → s.jobs (.inl k) ≠ none := by
    intro a who env pub ha hb hwho
    obtain ⟨r, -, rfl⟩ := Option.map_eq_some_iff.mp hb
    dsimp only at hjob
    rwa [Function.update_of_ne hwho.symm, ha] at hjob
  cases step_cases h with
  | publish j env pub ack s' hpc hb =>
      by_cases hjk : j = k
      · subst hjk
        rw [(begin_frame hb).1, goTo_conn]
        exact Or.inr ⟨rfl, Or.inr ⟨ack, rfl⟩⟩
      · exact Or.inl (hbegin (goTo_jobs s j s.broker (.reply ack)) hb (by simpa using hjk))
  | will j env s' hpc hwill hb =>
      by_cases hjk : j = k
      · subst hjk
        rw [(begin_frame hb).1, goTo_conn]
        exact Or.inr ⟨rfl, Or.inl rfl⟩
      · exact Or.inl (hbegin (goTo_jobs s j s.broker .clearWill) hb (by simpa using hjk))
  | foreign t env pub s' hfree hb => exact Or.inl (hbegin rfl hb (by simp))
  | send who env pub op ops table gens hold =>
      refine Or.inl ?_
      by_cases hwho : who = .inl k
      · subst hwho
        simp [hold]
      · simpa [Function.update_of_ne (Ne.symm hwho)] using hjob
  | offline who pub table gens hold =>
      refine Or.inl ?_
      by_cases hwho : who = .inl k
      · subst hwho
        simp [hold]
      · simpa [Function.update_of_ne (Ne.symm hwho)] using hjob
  | _ => exact Or.inl hjob

theorem Settled.step [Inhabited κ] (hs : s.Settled) (h : s.step e = some s') : s'.Settled where
  free := idle_of_free hs.free h
  jobs k hjob := by
    rcases step_jobs h hjob with hold | ⟨-, hconn⟩
    · by_cases hk : e.slot = some k
      · have hpc := hs.jobs k hold
        cases step_cases h with
        | alloc j fd hfree =>
            cases hk
            have hidle := hs.free k hfree
            simp [hidle] at hpc
        | next j env h' pc hnone => cases hk; exact absurd hnone hold
        | leave j hrecv => cases hk; rcases hrecv with hrecv | hrecv <;> simp [hrecv] at hpc
        | notConnect j env pkt hrecv | connect j env pkt conn hrecv | reject j env pkt code hrecv
        | late j env pkt hrecv | publishPacket j env pkt b pub ack hrecv
        | packet j env pkt h' hrecv | tick j env hrecv | publish j env pub ack s' hrecv
        | will j env s' hrecv =>
            cases hk
            simp [hrecv] at hpc
        | foreign | send | offline => cases hk
      · rw [(step_untouched h hk).conn]
        exact hs.jobs k hold
    · exact hconn

theorem settled_of_reach [Inhabited κ] {C : Threads cfg κ σ → ThreadEvent κ σ → Prop}
    (h : ReachBy C s) : s.Settled := by
  induction h with
  | init => exact ⟨fun _ _ ↦ rfl, fun _ hjob ↦ absurd rfl hjob⟩
  | step _ _ hstep ih => exact ih.step hstep

/-! ## The thread's own step -/

/-- What a step of its own thread makes of connection `k` and where the thread goes. -/
inductive OwnCase (s : Threads cfg κ σ) (k : κ) :
    ThreadEvent κ σ → Client → ConnPc cfg → Prop where
  | alloc (fd : ℤ) : OwnCase s k (.alloc k fd) (clientAllocated fd) .waiting
  | notConnect (env : Env κ) (pkt : MqttPacket) (hpc : s.conn k = .waiting)
      (htype : pkt.typeFlags ≠ PacketType.connect) :
      OwnCase s k (.connect k env pkt) (s.broker.clients k) .closeFd
  | connect (env : Env κ) (pkt : MqttPacket) (conn : MqttConnect) (hpc : s.conn k = .waiting)
      (htype : pkt.typeFlags = PacketType.connect) (hcheck : connectCheck cfg pkt = .ok conn) :
      OwnCase s k (.connect k env pkt) (s.broker.clients k) (.takeover conn)
  | reject (env : Env κ) (pkt : MqttPacket) (code : Option UInt8) (c : Client)
      (hpc : s.conn k = .waiting) (htype : pkt.typeFlags = PacketType.connect)
      (hcheck : connectCheck cfg pkt = .error code) (hstays : (s.broker.clients k).Stays c) :
      OwnCase s k (.connect k env pkt) c .loop
  | leave (hpc : s.conn k = .waiting ∨ s.conn k = .recv) :
      OwnCase s k (.leave k) (s.broker.clients k) .closeFd
  | packet (env : Env κ) (pkt : MqttPacket) (c : Client) (pc : ConnPc cfg)
      (hpc : s.conn k = .recv)
      (hstays : Stays { s.broker.clients k with
        lastSeenMs := env.now
        hasWill := (s.broker.clients k).hasWill && !(pkt.headerOk &&
          pkt.type = PacketType.disconnect && (s.broker.clients k).state = .connected) } c)
      (hpc' : pc = .closeFd ∨ pc = .loop ∨ ∃ pub ack, pc = .publish pub ack) :
      OwnCase s k (.packet k env pkt) c pc
  | tick (env : Env κ) (c : Client) (hpc : s.conn k = .recv)
      (hstays : (s.broker.clients k).Stays c) : OwnCase s k (.tick k env) c .loop
  | next (env : Env κ) (h : Handled cfg κ) (pc : ConnPc cfg)
      (hnext : connStep env s.broker k (s.conn k) = some (h, pc)) :
      OwnCase s k (.next k env) (h.broker.clients k) pc
  | publish (env : Env κ) (pub : MqttPublish) (ack : Option Bytes) (c : Client)
      (hpc : s.conn k = .publish pub ack) (hstays : (s.broker.clients k).Stays c) :
      OwnCase s k (.publish k env) c (.reply ack)
  | will (env : Env κ) (c : Client) (hpc : s.conn k = .will)
      (hwill : (s.broker.clients k).hasWill = true) (hstays : (s.broker.clients k).Stays c) :
      OwnCase s k (.publish k env) c .clearWill

theorem own_cases (h : s.step e = some s') {k : κ} (hk : e.slot = some k) :
    OwnCase s k e (s'.broker.clients k) (s'.conn k) := by
  have hself : ∀ f : Client → Client, (s.broker.updateClient k f).clients k =
      f (s.broker.clients k) := fun _ ↦ Function.update_self _ _ _
  have hbegin : ∀ {a : Threads cfg κ σ} {env : Env κ} {pub : MqttPublish}, a.broker = s.broker →
      a.begin (.inl k) env pub = some s' →
      (s.broker.clients k).Stays (s'.broker.clients k) ∧ s'.conn = a.conn := by
    intro a env pub ha hb
    refine ⟨?_, (begin_frame hb).1⟩
    obtain ⟨r, hlocked, rfl⟩ := Option.map_eq_some_iff.mp hb
    rw [← ha]
    exact (sentTo_rule.locked hlocked k).stays
  cases step_cases h with
  | alloc j fd =>
      cases hk
      simp only [goTo_conn, goTo_broker, clientAlloc, hself]
      exact .alloc fd
  | notConnect j env pkt hpc htype =>
      cases hk
      rw [goTo_conn]
      exact .notConnect env pkt hpc htype
  | connect j env pkt conn hpc hcheck htype =>
      cases hk
      rw [goTo_conn]
      exact .connect env pkt conn hpc htype hcheck
  | reject j env pkt code hpc hcheck htype =>
      cases hk
      rw [goTo_conn, goTo_broker, handleConnect, hcheck]
      have hR : DispatchRule k fun b b' : Broker cfg κ ↦
        (b.clients k).Stays (b'.clients k) := stays_rule k
      exact .reject env pkt code _ hpc htype hcheck (hR.trans
        (hR.reply env (code.bind fun code ↦ packetBuildConnack 0 code 4) ⟨s.broker, []⟩)
        (hR.close _))
  | leave j hpc =>
      cases hk
      rw [goTo_conn]
      exact .leave hpc
  | late j env pkt hpc hok hstate =>
      cases hk
      rw [goTo_conn, goTo_broker, hself]
      exact .packet env pkt _ _ hpc ⟨rfl, rfl, rfl, rfl, rfl, by simp [hstate]⟩ (Or.inl rfl)
  | publishPacket j env pkt b pub ack hpc hb hstate =>
      cases hk
      rw [goTo_conn, goTo_broker]
      have hne : pkt.type ≠ PacketType.disconnect := by
        rw [(publishBegin_header hb).2]
        decide
      have hstays := publishBegin_stays hb
      exact .packet env pkt _ _ hpc ⟨hstays.clientId, hstays.cleanSession, hstays.keepalive,
        hstays.lastSeenMs, hstays.will, by simp [hstays.hasWill, hne]⟩
        (Or.inr (Or.inr ⟨pub, ack, rfl⟩))
  | packet j env pkt h' hpc hb hrun hstate =>
      cases hk
      rw [goTo_conn, goTo_broker]
      have hstays := dispatch_stays hrun
      refine .packet env pkt _ _ hpc ⟨hstays.clientId, hstays.cleanSession, hstays.keepalive,
        hstays.lastSeenMs, hstays.will, hstays.hasWill.trans ?_⟩ (Or.inr (Or.inl rfl))
      cases hok : pkt.headerOk with
      | false => simp
      | true => simp [hstate hok]
  | tick j env hpc =>
      cases hk
      rw [goTo_conn, goTo_broker, hself]
      exact .tick env _ hpc (Client.inflightRetry_stays _ _ _)
  | next j env h' pc hjob hnext =>
      cases hk
      rw [goTo_conn]
      exact .next env h' pc hnext
  | publish j env pub ack s' hpc hb =>
      cases hk
      obtain ⟨hstays, hconn⟩ := hbegin (a := s.goTo k s.broker (.reply ack)) rfl hb
      rw [hconn, goTo_conn]
      exact .publish env pub ack _ hpc hstays
  | will j env s' hpc hwill hb =>
      cases hk
      obtain ⟨hstays, hconn⟩ := hbegin (a := s.goTo k s.broker .clearWill) rfl hb
      rw [hconn, goTo_conn]
      exact .will env _ hpc hwill hstays
  | foreign | send | offline => cases hk

/-! ## The observer -/

end Threads

/-- What an observer notes about the present connection of a slot. -/
structure ConnLog where
  /-- the CONNECT that passed the tests of `handle_connect` -/
  accepted : Option MqttConnect := none
  /-- a DISCONNECT was handled -/
  disconnected : Bool := false
  /-- the Will messages that `client_free` passed to `topic_publish` -/
  wills : List MqttPublish := []
  /-- when the first packet was received -/
  connectAt : Option ℤ := none
  /-- when the later packets were received, the last one first -/
  packetsAt : List ℤ := []

namespace ConnLog

/-- When complete packets were received. -/
def heard (l : ConnLog) : List ℤ := l.packetsAt ++ l.connectAt.toList

variable [DecidableEq κ]

/-- What is noted about the connection in slot `k` when its thread takes a step. -/
def note (s : Threads cfg κ σ) (k : κ) : ThreadEvent κ σ → ConnLog → ConnLog
  | .alloc _ _, _ => {}
  | .connect _ env pkt, l =>
      { l with
        connectAt := some env.now
        accepted := if pkt.typeFlags = PacketType.connect then (connectCheck cfg pkt).toOption
          else none }
  | .packet _ env pkt, l =>
      { l with
        packetsAt := env.now :: l.packetsAt
        disconnected := l.disconnected || (pkt.headerOk && pkt.type = PacketType.disconnect &&
          (s.broker.clients k).state = .connected) }
  | .publish _ _, l =>
      match s.conn k with
      | .will => { l with wills := l.wills ++ [(s.broker.clients k).will] }
      | _ => l
  | _, l => l

end ConnLog

namespace Threads

variable [DecidableEq κ] [DecidableEq σ]

/-- The threads with an observer of every slot. -/
def observed (cfg : Config) (κ σ : Type) [DecidableEq κ] [DecidableEq σ] :
    Observer.System (Threads cfg κ σ) (ThreadEvent κ σ) (κ → ConnLog) where
  step := step
  note s e logs :=
    match e.slot with
    | some k => Function.update logs k ((logs k).note s k e)
    | none => logs

/-- The states of the runs whose steps satisfy `C`, with the observer's notes. -/
def Observed [Inhabited κ] (C : Threads cfg κ σ → (κ → ConnLog) → ThreadEvent κ σ → Prop) :
    Threads cfg κ σ → (κ → ConnLog) → Prop :=
  Observer.Reach (observed cfg κ σ) C (init cfg κ σ) fun _ ↦ {}

variable {s s' : Threads cfg κ σ} {e : ThreadEvent κ σ}

theorem note_of_ne {logs : κ → ConnLog} {k : κ} (hk : e.slot ≠ some k) :
    (observed cfg κ σ).note s e logs k = logs k := by
  cases hslot : e.slot with
  | none => simp only [observed, hslot]
  | some j =>
      have hkj : k ≠ j := fun hkj ↦ hk (by rw [hslot, hkj])
      simp only [observed, hslot, Function.update_of_ne hkj]

theorem note_self {logs : κ → ConnLog} {k : κ} (hk : e.slot = some k) :
    (observed cfg κ σ).note s e logs k = (logs k).note s k e := by
  simp only [observed, hk, Function.update_self]

end Threads

namespace Sample

/-- A client has been accepted and waits for its first packet. -/
def upEnd : Option (Threads Config.posix ℕ Unit) :=
  (Threads.init _ _ _).run ([.alloc 0 5, .connect 0 env connectPkt] ++ List.replicate 6 (.next 0 env))

theorem upEnd_reach : ∃ s, upEnd = some s ∧ Threads.ReachBy (fun _ _ ↦ True) s := by
  have hrun : upEnd.isSome = true := by decide
  have hend := (Option.some_get hrun).symm
  exact ⟨_, hend, Threads.ReachBy.init.run (fun _ _ _ ↦ trivial) hend⟩

theorem upEnd_recv {s : Threads Config.posix ℕ Unit} (h : upEnd = some s) :
    s.conn 0 = .recv ∧ (s.broker.clients 0).state = .connected := by
  have hend : upEnd.map (fun s ↦ (s.conn 0, (s.broker.clients 0).state)) =
      some (.recv, .connected) := rfl
  rw [h] at hend
  simpa using hend

end Sample

end MqttBroker
