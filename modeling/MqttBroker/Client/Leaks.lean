import MqttBroker.Client.EarlyAcks
import MqttBroker.Client.Retransmit

/-!
# Slots that are lost

`client_send` sets a connection to DISCONNECTING when its descriptor is closed,
also when its slot is free by then.  Such a slot has no thread that could free it
again, and `client_alloc` passes it over from then on.
-/

namespace MqttBroker

variable {cfg : Config} {κ σ : Type} [DecidableEq κ]

/-! ## The connections that a step leaves alone -/

section

variable {env : Env κ} {b b' : Broker cfg κ} {me : κ}

omit [DecidableEq κ] in
theorem Broker.onlyClient_refl (b : Broker cfg κ) : b.OnlyClient me b := fun _ _ ↦ rfl

theorem Broker.onlyClient_close (b : Broker cfg κ) : b.OnlyClient me (b.close me) :=
  b.onlyClient_update _

theorem Handled.onlyClient_reply (env : Env κ) (frame : Option Bytes) (h : Handled cfg κ) :
    h.broker.OnlyClient me (h.reply env me frame).broker := by
  cases frame with
  | none => exact h.broker.onlyClient_refl
  | some frame => exact fun _ hk ↦ Function.update_of_ne hk _ _

theorem publishBegin_onlyClient {pkt : MqttPacket} {pub : MqttPublish} {ack : Option Bytes}
    (h : publishBegin env b me pkt = some (b', pub, ack)) : b.OnlyClient me b' := by
  have hseen : b.OnlyClient me (b.updateClient me fun c ↦ { c with lastSeenMs := env.now }) :=
    b.onlyClient_update _
  unfold publishBegin at h
  rcases ite_eq_iff.mp h with ⟨-, h⟩ | ⟨-, h⟩
  · cases h
  split at h
  · cases h
  dsimp only at h
  generalize b.updateClient me (fun c ↦ { c with lastSeenMs := env.now }) = b₁ at h hseen
  rcases ite_eq_iff.mp h with ⟨-, h⟩ | ⟨-, h⟩
  · cases h
  rcases ite_eq_iff.mp h with ⟨-, h⟩ | ⟨-, h⟩
  · split at h
    · cases h
      exact hseen.trans (b₁.onlyClient_update _)
    · cases h
    · cases h
  · cases h
    exact hseen

theorem handleUnsubscribe_onlyClient {pkt : MqttPacket} {h : Handled cfg κ}
    (hrun : handleUnsubscribe env b me pkt = some h) : b.OnlyClient me h.broker := by
  unfold handleUnsubscribe at hrun
  split at hrun
  · cases hrun
    exact b.onlyClient_close
  · obtain ⟨⟨t, ok, n⟩, -, hrun⟩ := Option.bind_eq_some_iff.mp hrun
    cases hrun
    dsimp only
    split_ifs
    · exact Handled.onlyClient_reply env _ ⟨{ b with table := t }, n.map .notify⟩
    · exact Broker.onlyClient_close { b with table := t }

/-- A PUBLISH that `publishBegin` does not pass on reaches nobody else. -/
theorem handlePublish_onlyClient {pkt : MqttPacket} {h : Handled cfg κ}
    (hok : pkt.headerOk = true) (htype : pkt.type = PacketType.publish) {now : ℤ}
    (hb : b = b'.updateClient me fun c ↦ { c with lastSeenMs := now })
    (hbegin : publishBegin env b' me pkt = none) (hrun : handlePublish env b me pkt = some h) :
    b.OnlyClient me h.broker := by
  unfold handlePublish at hrun
  split at hrun
  · cases hrun
    exact b.onlyClient_refl
  · next pub hparse =>
      by_cases hacc : acceptedPublish pkt = some pub
      · obtain ⟨h2, hslot⟩ := publishBegin_none hacc hbegin
        have hq : (b.clients me).qos2In = (b'.clients me).qos2In := by
          rw [hb]
          exact b'.updateClient_qos2In me _
        rw [← hq] at hslot
        obtain ⟨-, -, -, h3, hne, hplain, hid⟩ := acceptedPublish_eq_some hacc
        rw [if_neg h3, if_neg (by simp [hne, hplain]), if_neg hid] at hrun
        unfold publishAccepted at hrun
        rw [if_pos h2] at hrun
        cases hfound : (b.clients me).qos2In.slot pub.packetId with
        | free i => exact absurd hfound (hslot i)
        | dup | full =>
            rw [hfound] at hrun
            cases hrun
            exact Handled.onlyClient_reply env _ ⟨b, []⟩
      · split_ifs at hrun with h3 htopic hid
        iterate 3
          · cases hrun
            exact b.onlyClient_close
        refine absurd ?_ hacc
        obtain ⟨hne, hplain⟩ := not_or.mp htopic
        unfold acceptedPublish
        rw [if_pos (by simp [hok, htype]), hparse, Option.filter_eq_some_iff]
        refine ⟨rfl, ?_⟩
        have hplain : hasWildcard pub.topic = false := by simpa using hplain
        simp only [hplain, h3, hne, hid, ne_eq, not_false_eq_true, decide_true, Bool.not_false,
          Bool.and_self, ← Bool.decide_and, decide_false]

/-- A packet that publishes nothing changes its own connection only. -/
theorem dispatch_onlyClient {pkt : MqttPacket} {h : Handled cfg κ}
    (hbegin : publishBegin env b me pkt = none) (hrun : dispatch env b me pkt = some h) :
    b.OnlyClient me h.broker := by
  have hseen : b.OnlyClient me (b.updateClient me fun c ↦ { c with lastSeenMs := env.now }) :=
    b.onlyClient_update _
  unfold dispatch at hrun
  dsimp only at hrun
  generalize hb : b.updateClient me (fun c ↦ { c with lastSeenMs := env.now }) = b₁ at hrun hseen
  refine hseen.trans ?_
  rcases ite_eq_iff.mp hrun with ⟨-, hrun⟩ | ⟨hok, hrun⟩
  · cases hrun
    exact b₁.onlyClient_close
  cases dispatchType_cases hrun with
  | connect => exact b₁.onlyClient_close
  | publish htype hrun =>
      exact handlePublish_onlyClient (by simpa using hok) htype hb.symm hbegin hrun
  | subscribe => exact handleSubscribe_onlyClient env b₁ me pkt
  | unsubscribe _ hrun => exact handleUnsubscribe_onlyClient hrun
  | pingreq => exact Handled.onlyClient_reply env _ ⟨b₁, []⟩
  | disconnect => exact (b₁.onlyClient_update _).trans (Broker.onlyClient_close _)
  | ack | pubrec => exact fun _ hk ↦ Function.update_of_ne hk _ _
  | pubrel =>
      exact (b₁.onlyClient_update (·.qos2Release pkt.packetId)).trans
        (Handled.onlyClient_reply env _ ⟨b₁.updateClient me (·.qos2Release pkt.packetId), []⟩)
  | ignored => exact b₁.onlyClient_refl

/-- `client_takeover` alone reaches for the connections of others. -/
theorem connStep_onlyClient {pc pc' : ConnPc cfg} {h : Handled cfg κ}
    (hnext : connStep env b me pc = some (h, pc')) :
    b.OnlyClient me h.broker ∨
      ∃ conn, pc = .takeover conn ∧ h.broker = clientTakeover b me conn.clientId := by
  have hupdate : ∀ f : Client → Client, b.OnlyClient me (b.updateClient me f) :=
    b.onlyClient_update
  cases pc with
  | takeover conn =>
      cases hnext
      exact Or.inr ⟨conn, rfl, rfl⟩
  | assignId conn =>
      cases hnext
      exact Or.inl (hupdate (·.assignId conn))
  | assignRest conn =>
      cases hnext
      exact Or.inl (hupdate (·.assignRest conn))
  | closeFd =>
      cases hnext
      exact Or.inl (hupdate (·.closeFd))
  | clearWill =>
      cases hnext
      exact Or.inl (hupdate fun c ↦ { c with hasWill := false })
  | release =>
      cases hnext
      exact Or.inl (hupdate fun c ↦ { c with state := .free })
  | connack sess present =>
      cases hnext
      exact Or.inl (Handled.onlyClient_reply env _ ⟨b, []⟩)
  | reply ack =>
      cases hnext
      exact Or.inl (Handled.onlyClient_reply env ack ⟨b, []⟩)
  | drain s =>
      cases hnext
      exact Or.inl fun k hk ↦ Function.update_of_ne hk _ _
  | restore i n =>
      simp only [connStep] at hnext
      split at hnext
      · cases hnext
        unfold restoreOne
        split_ifs <;> exact Or.inl b.onlyClient_refl
      · cases hnext
        exact Or.inl b.onlyClient_refl
  | will =>
      simp only [connStep] at hnext
      split_ifs at hnext
      cases hnext
      exact Or.inl b.onlyClient_refl
  | saveInflight i n =>
      simp only [connStep] at hnext
      split at hnext <;> cases hnext <;> exact Or.inl b.onlyClient_refl
  | unsubscribe =>
      obtain ⟨r, -, heq⟩ := Option.map_eq_some_iff.mp hnext
      cases heq
      exact Or.inl b.onlyClient_refl
  | delete =>
      cases hnext
      dsimp only
      split_ifs <;> exact Or.inl b.onlyClient_refl
  | openSession | online | loop | collect | lookup | saveSubs =>
      cases hnext
      exact Or.inl b.onlyClient_refl
  | idle | waiting | recv | publish => cases hnext

/-- Collecting the targets leaves every connection in its state. -/
theorem publishLocked_state {pub : MqttPublish} {r : Broker cfg κ × Option (List (SendOp κ))}
    (h : publishLocked env b pub = some r) (k : κ) :
    (r.1.clients k).state = (b.clients k).state := by
  unfold publishLocked at h
  split at h
  · cases h
    rfl
  · obtain ⟨⟨clients, ops⟩, hops, rfl⟩ := Option.map_eq_some_iff.mp h
    unfold fanOutOps at hops
    split_ifs at hops
    · obtain ⟨ops', -, heq⟩ := Option.map_eq_some_iff.mp hops
      cases heq
      rfl
    · obtain ⟨slots, -, heq⟩ := Option.bind_eq_some_iff.mp hops
      cases heq
      have hfold : ∀ (l : List (Slot cfg)) (st : Collected κ),
          ((l.foldl (collectQos b.table pub) st).clients k).state = (st.clients k).state := by
        intro l
        induction l with
        | nil => exact fun _ ↦ rfl
        | cons i l ih =>
            intro st
            rw [List.foldl_cons, ih]
            rcases collectQos_cases b.table pub st i with ⟨-, hsame⟩ | ⟨c, qos, id, -, hc⟩
            · rw [hsame]
            · rcases hc with ⟨-, hsame⟩ | ⟨-, hupdate⟩
              · rw [hsame]
              · rw [hupdate]
                by_cases hk : k = c
                · rw [hk, Function.update_self]
                · rw [Function.update_of_ne hk]
      exact hfold slots ⟨[], [], b.clients⟩

end

namespace Threads

variable [DecidableEq σ] {s s' : Threads cfg κ σ} {e : ThreadEvent κ σ}

/-- The connection that the next `client_send` of a publish is for. -/
def sendTarget (s : Threads cfg κ σ) : ThreadEvent κ σ → Option κ
  | .send who _ =>
      match s.jobs who with
      | some ⟨_, .send k _ :: _, _, _⟩ => some k
      | _ => none
  | _ => none

/-- Only a takeover and `client_send` change the state of a connection of another
thread. -/
theorem step_state_ne (h : s.step e = some s') {k : κ} (hk : e.slot ≠ some k) :
    (s'.broker.clients k).state = (s.broker.clients k).state ∨
      (s'.broker.clients k).state = .disconnecting ∧
        ((s.broker.clients k).state = .connected ∨ s.sendTarget e = some k) := by
  have hne : ∀ {j : κ}, e.slot = some j → k ≠ j := fun hj hkj ↦ hk (hkj ▸ hj)
  have hstate : ∀ {j : κ} {b : Broker cfg κ}, e.slot = some j → s.broker.OnlyClient j b →
      (b.clients k).state = (s.broker.clients k).state := fun hj hb ↦ by rw [hb k (hne hj)]
  have hbegin : ∀ {a : Threads cfg κ σ} {who : κ ⊕ σ} {env : Env κ} {pub : MqttPublish},
      a.broker = s.broker → a.begin who env pub = some s' →
      (s'.broker.clients k).state = (s.broker.clients k).state := by
    intro a who env pub ha hb
    obtain ⟨r, hlocked, rfl⟩ := Option.map_eq_some_iff.mp hb
    rw [← ha]
    exact publishLocked_state hlocked k
  cases step_cases h with
  | alloc j fd =>
      exact Or.inl (hstate (j := j) rfl fun _ hk ↦ Function.update_of_ne hk _ _)
  | notConnect j | connect j | leave j => exact Or.inl rfl
  | reject j env pkt code hpc hcheck =>
      refine Or.inl (hstate (j := j) rfl ?_)
      rw [handleConnect, hcheck]
      exact (Handled.onlyClient_reply env _ ⟨s.broker, []⟩).trans (Broker.onlyClient_close _)
  | late j env =>
      exact Or.inl (hstate (j := j) rfl fun _ hk ↦ Function.update_of_ne hk _ _)
  | publishPacket j env pkt b pub ack hpc hb =>
      exact Or.inl (hstate (j := j) rfl (publishBegin_onlyClient hb))
  | packet j env pkt h' hpc hb hrun =>
      exact Or.inl (hstate (j := j) rfl (dispatch_onlyClient hb hrun))
  | tick j env =>
      exact Or.inl (hstate (j := j) rfl fun _ hk ↦ Function.update_of_ne hk _ _)
  | next j env h' pc hjob hnext =>
      rcases connStep_onlyClient hnext with honly | ⟨conn, -, htake⟩
      · exact Or.inl (hstate (j := j) rfl honly)
      · rw [goTo_broker, htake]
        dsimp only [clientTakeover]
        split_ifs with htaken
        · exact Or.inr ⟨rfl, Or.inl htaken.2.1⟩
        · exact Or.inl rfl
  | publish j env pub ack s' hpc hb =>
      exact Or.inl (hbegin (a := s.goTo j s.broker (.reply ack)) rfl hb)
  | will j env s' hpc hwill hb =>
      exact Or.inl (hbegin (a := s.goTo j s.broker .clearWill) rfl hb)
  | foreign t env pub s' hjob hb => exact Or.inl (hbegin rfl hb)
  | offline => exact Or.inl rfl
  | send who env pub op ops table gens hjob =>
      dsimp only
      cases op with
      | send c frame =>
          by_cases hkc : k = c
          · subst hkc
            simp only [SendOp.run, Function.update_self, Client.clientSend]
            split_ifs
            · exact Or.inl rfl
            · exact Or.inr ⟨rfl, Or.inr (by simp only [sendTarget, hjob])⟩
          · exact Or.inl (by rw [SendOp.run, Function.update_of_ne hkc])
      | store c id frame qos =>
          refine Or.inl ?_
          by_cases hkc : k = c
          · subst hkc
            simp only [SendOp.run, Function.update_self, Client.inflightStore]
            split <;> rfl
          · rw [SendOp.run, Function.update_of_ne hkc]

/-! ## Closed descriptors -/

end Threads

/-- The places of `client_free` once the descriptor is closed, and of a slot without a
thread. -/
def ConnPc.Closed : ConnPc cfg → Prop
  | .will | .clearWill | .collect | .lookup _ | .saveSubs _ _ | .saveInflight _ _ |
    .unsubscribe | .delete | .release | .idle => True
  | _ => False

theorem ConnPc.Closed.freeing {pc : ConnPc cfg} (h : pc.Closed) : pc.Freeing := by
  cases pc <;> first | exact trivial | exact h.elim

theorem Client.closeFd_fd (c : Client) : c.closeFd.fd < 0 := by
  unfold closeFd
  split_ifs with hopen
  · exact Int.negSucc_lt_zero 0
  · exact not_le.mp hopen

/-- `client_free` closes the descriptor before it does anything else. -/
theorem connStep_closed {env : Env κ} {b : Broker cfg κ} {me : κ} {pc pc' : ConnPc cfg}
    {h : Handled cfg κ} (hnext : connStep env b me pc = some (h, pc')) (hclosed : pc'.Closed) :
    (h.broker.clients me).fd < 0 ∨
      pc.Closed ∧ (h.broker.clients me).fd = (b.clients me).fd := by
  have hself : ∀ f : Client → Client, (b.updateClient me f).clients me = f (b.clients me) :=
    fun _ ↦ Function.update_self _ _ _
  cases pc with
  | closeFd =>
      cases hnext
      refine Or.inl ?_
      dsimp only
      rw [hself]
      exact Client.closeFd_fd _
  | will =>
      simp only [connStep] at hnext
      split_ifs at hnext
      cases hnext
      exact Or.inr ⟨trivial, rfl⟩
  | clearWill =>
      cases hnext
      refine Or.inr ⟨trivial, ?_⟩
      dsimp only
      rw [hself]
  | release =>
      cases hnext
      refine Or.inr ⟨trivial, ?_⟩
      dsimp only
      rw [hself]
  | collect | lookup | saveSubs =>
      cases hnext
      exact Or.inr ⟨trivial, rfl⟩
  | saveInflight i n =>
      simp only [connStep] at hnext
      split at hnext <;> cases hnext <;> exact Or.inr ⟨trivial, rfl⟩
  | unsubscribe =>
      obtain ⟨r, -, heq⟩ := Option.map_eq_some_iff.mp hnext
      cases heq
      exact Or.inr ⟨trivial, rfl⟩
  | delete =>
      cases hnext
      refine Or.inr ⟨trivial, ?_⟩
      dsimp only
      split_ifs <;> rfl
  | connack sess present =>
      cases hnext
      rcases sess with - | s <;> cases present <;> exact hclosed.elim
  | restore i n =>
      simp only [connStep] at hnext
      split at hnext <;> cases hnext <;> exact hclosed.elim
  | loop =>
      cases hnext
      split_ifs at hclosed <;> exact hclosed.elim
  | takeover | assignId | assignRest | openSession | online | drain | reply =>
      cases hnext
      exact hclosed.elim
  | idle | waiting | recv | publish => cases hnext

/-- A thread ends by freeing its slot. -/
theorem connStep_idle {env : Env κ} {b : Broker cfg κ} {me : κ} {pc : ConnPc cfg}
    {h : Handled cfg κ} (hnext : connStep env b me pc = some (h, .idle)) :
    (h.broker.clients me).state = .free := by
  cases pc with
  | release =>
      cases hnext
      simp [Broker.updateClient]
  | connack sess present => rcases sess with - | s <;> cases present <;> cases hnext
  | restore i n | saveInflight i n | will =>
      simp only [connStep] at hnext
      split_ifs at hnext <;> cases hnext
  | loop | collect =>
      simp only [connStep, Option.some.injEq, Prod.mk.injEq] at hnext
      split_ifs at hnext <;> cases hnext.2
  | lookup subs =>
      simp only [connStep, Option.some.injEq, Prod.mk.injEq] at hnext
      obtain ⟨-, hpc⟩ := hnext
      split at hpc <;> cases hpc
  | unsubscribe =>
      obtain ⟨r, -, heq⟩ := Option.map_eq_some_iff.mp hnext
      obtain ⟨-, hpc⟩ := Prod.mk.inj heq
      split_ifs at hpc
  | _ => cases hnext

namespace Threads

variable [DecidableEq σ] {s s' : Threads cfg κ σ} {e : ThreadEvent κ σ}

/-- The descriptor of a connection that `client_free` has closed stays closed. -/
theorem closed_step (hs : ∀ k, (s.conn k).Closed → (s.broker.clients k).fd < 0)
    (h : s.step e = some s') (k : κ) (hclosed : (s'.conn k).Closed) :
    (s'.broker.clients k).fd < 0 := by
  by_cases hk : e.slot = some k
  · have hbegin : ∀ {a : Threads cfg κ σ} {env : Env κ} {pub : MqttPublish},
        a.broker = s.broker → a.begin (.inl k) env pub = some s' →
        (s'.broker.clients k).fd = (s.broker.clients k).fd := by
      intro a env pub ha hb
      obtain ⟨r, hlocked, rfl⟩ := Option.map_eq_some_iff.mp hb
      rw [← ha]
      exact (sentTo_rule.locked hlocked k).fd
    cases step_cases h with
    | alloc | notConnect | connect | reject | late | publishPacket | packet | tick | leave =>
        cases hk
        rw [show _ = _ from goTo_conn s k _ _] at hclosed
        exact hclosed.elim
    | next j env h' pc hjob hnext =>
        cases hk
        rw [goTo_conn] at hclosed
        rcases connStep_closed hnext hclosed with hfd | ⟨hold, hfd⟩
        · exact hfd
        · rw [goTo_broker, hfd]
          exact hs k hold
    | publish j env pub ack s' hpc hb =>
        cases hk
        rw [(begin_frame hb).1, goTo_conn] at hclosed
        exact hclosed.elim
    | will j env s' hpc hwill hb =>
        cases hk
        rw [hbegin (a := s.goTo k s.broker .clearWill) rfl hb]
        exact hs k (by rw [hpc]; trivial)
    | foreign | send | offline => cases hk
  · have hkept := step_untouched h hk
    rw [hkept.client.fd]
    exact hs k (hkept.conn ▸ hclosed)

theorem closed_of_reach [Inhabited κ] {C : Threads cfg κ σ → ThreadEvent κ σ → Prop}
    (h : ReachBy C s) : ∀ k, (s.conn k).Closed → (s.broker.clients k).fd < 0 := by
  induction h with
  | init =>
      exact fun _ _ ↦ Int.negSucc_lt_zero 0
  | step _ _ hstep ih => exact closed_step ih hstep

/-! ## Lost slots -/

/-- The slot is not free and has no thread. -/
def Lost (s : Threads cfg κ σ) (k : κ) : Prop :=
  s.conn k = .idle ∧ (s.broker.clients k).state ≠ .free

/-- The free slot that a publish sends to next. -/
def freedTarget (s : Threads cfg κ σ) (e : ThreadEvent κ σ) : Option κ :=
  (s.sendTarget e).filter fun k ↦ (s.broker.clients k).state = .free

omit [DecidableEq κ] [DecidableEq σ] in
theorem freedTarget_eq_some {k : κ} : s.freedTarget e = some k ↔
    s.sendTarget e = some k ∧ (s.broker.clients k).state = .free := by
  simp [freedTarget, Option.filter_eq_some_iff]

/-- A thread without a slot has to be given one before it can take a step, and ends
with its slot free. -/
theorem own_step (h : s.step e = some s') {k : κ} (hk : e.slot = some k) :
    ((∃ fd, e = .alloc k fd) ∧ (s.broker.clients k).state = .free ∧ s'.conn k ≠ .idle) ∨
      s.conn k ≠ .idle ∧ (s'.conn k = .idle → (s'.broker.clients k).state = .free) := by
  have hown := own_cases h hk
  generalize s'.broker.clients k = c at hown ⊢
  generalize hpc' : s'.conn k = pc' at hown ⊢
  cases hown with
  | alloc fd =>
      refine Or.inl ⟨⟨fd, rfl⟩, ?_, by simp⟩
      cases step_cases h with
      | alloc _ _ hfree => exact hfree
  | notConnect env pkt hpc | connect env pkt conn hpc | reject env pkt code c hpc
  | tick env c hpc | publish env pub ack c hpc | will env c hpc =>
      exact Or.inr ⟨by simp [hpc], by simp⟩
  | leave hpc =>
      refine Or.inr ⟨fun hidle ↦ ?_, by simp⟩
      rcases hpc with hpc | hpc <;> simp [hidle] at hpc
  | packet env pkt c pc hpc hstays hgo =>
      refine Or.inr ⟨by simp [hpc], fun hidle ↦ ?_⟩
      rcases hgo with hgo | hgo | ⟨pub, ack, hgo⟩ <;> simp [hgo] at hidle
  | next env h' pc hnext =>
      refine Or.inr ⟨fun hidle ↦ ?_, fun hidle ↦ ?_⟩
      · rw [hidle] at hnext
        cases hnext
      · subst hidle
        exact connStep_idle hnext

/-- A lost slot stays lost. -/
theorem Lost.step {k : κ} (hlost : s.Lost k) (h : s.step e = some s') :
    s'.Lost k ∧ e.slot ≠ some k := by
  have hk : e.slot ≠ some k := by
    intro hk
    rcases own_step h hk with ⟨-, hfree, -⟩ | ⟨hidle, -⟩
    · exact hlost.2 hfree
    · exact hidle hlost.1
  refine ⟨⟨(step_untouched h hk).conn.trans hlost.1, ?_⟩, hk⟩
  rcases step_state_ne h hk with hsame | ⟨hdown, -⟩
  · exact hsame ▸ hlost.2
  · simp [hdown]

theorem Lost.run {k : κ} (hlost : s.Lost k) {es : List (ThreadEvent κ σ)}
    (hrun : s.run es = some s') : s'.Lost k ∧ ∀ e ∈ es, e.slot ≠ some k := by
  induction es generalizing s with
  | nil =>
      cases hrun
      exact ⟨hlost, by simp⟩
  | cons e es ih =>
      obtain ⟨s₁, hstep, hrest⟩ := Option.bind_eq_some_iff.mp hrun
      obtain ⟨hlost₁, he⟩ := hlost.step hstep
      obtain ⟨hlost', hes⟩ := ih hlost₁ hrest
      exact ⟨hlost', List.forall_mem_cons.mpr ⟨he, hes⟩⟩

/-! ## What loses a slot -/

/-- The threads with an observer who notes the slots that a publish sent to when they
were free. -/
def leaks (cfg : Config) (κ σ : Type) [DecidableEq κ] [DecidableEq σ] :
    Observer.System (Threads cfg κ σ) (ThreadEvent κ σ) (κ → Bool) where
  step := step
  note s e hits k := hits k || s.freedTarget e = some k

/-- The slots that are lost are those that were hit. -/
structure LostIffHit (s : Threads cfg κ σ) (hits : κ → Bool) : Prop where
  free : ∀ k, (s.broker.clients k).state = .free → s.conn k = .idle
  closed : ∀ k, (s.conn k).Closed → (s.broker.clients k).fd < 0
  lost : ∀ k, s.Lost k ↔ hits k = true

/-- A publish that sends to a free slot leaves it DISCONNECTING. -/
theorem hit_step (h : s.step e = some s') {k : κ} (hhit : s.sendTarget e = some k)
    (hfd : (s.broker.clients k).fd < 0) : (s'.broker.clients k).state = .disconnecting := by
  cases step_cases h with
  | send who env pub op ops table gens hjob =>
      simp only [sendTarget, hjob] at hhit
      cases op with
      | send c frame =>
          cases hhit
          simp [SendOp.run, Client.clientSend, not_le.mpr hfd]
      | store => cases hhit
  | _ => cases hhit

theorem LostIffHit.step [Inhabited κ] {hits : κ → Bool} (hs : s.LostIffHit hits)
    (h : s.step e = some s') : s'.LostIffHit ((leaks cfg κ σ).note s e hits) where
  free := idle_of_free hs.free h
  closed := closed_step hs.closed h
  lost k := by
    have hnote : (leaks cfg κ σ).note s e hits k = true ↔
        hits k = true ∨ s.freedTarget e = some k := by simp [leaks]
    rw [hnote, ← hs.lost k]
    by_cases hk : e.slot = some k
    · have hno : s.freedTarget e ≠ some k := by
        intro hhit
        obtain ⟨hsend, -⟩ := freedTarget_eq_some.mp hhit
        cases e with
        | send | foreign | offline => cases hk
        | _ => cases hsend
      rcases own_step h hk with ⟨-, hfree, hbusy⟩ | ⟨hbusy, hfree⟩
      · have hnot : ¬s.Lost k := fun hlost ↦ hlost.2 hfree
        have hnot' : ¬s'.Lost k := fun hlost ↦ hbusy hlost.1
        simp [hno, hnot, hnot']
      · have hnot : ¬s.Lost k := fun hlost ↦ hbusy hlost.1
        have hnot' : ¬s'.Lost k := fun hlost ↦ hlost.2 (hfree hlost.1)
        simp [hno, hnot, hnot']
    · have hconn := (step_untouched h hk).conn
      constructor
      · rintro ⟨hidle, hstate⟩
        rw [hconn] at hidle
        by_cases hfree : (s.broker.clients k).state = .free
        · rcases step_state_ne h hk with hsame | ⟨-, hup | hsend⟩
          · exact absurd (hsame.trans hfree) hstate
          · rw [hfree] at hup
            cases hup
          · exact Or.inr (freedTarget_eq_some.mpr ⟨hsend, hfree⟩)
        · exact Or.inl ⟨hidle, hfree⟩
      · rintro (hlost | hhit)
        · exact (hlost.step h).1
        · obtain ⟨hsend, hfree⟩ := freedTarget_eq_some.mp hhit
          have hidle := hs.free k hfree
          have hdown := hit_step h hsend (hs.closed k (by rw [hidle]; trivial))
          exact ⟨hconn.trans hidle, by simp [hdown]⟩

end Threads

/-- `client_used_slots` -/
def clientUsedSlots (clients : κ → Client) (pool : List κ) : ℕ :=
  pool.countP fun k ↦ (clients k).state ≠ .free

/-- `client_free_slots` -/
def clientFreeSlots (clients : κ → Client) (pool : List κ) : ℕ :=
  pool.countP fun k ↦ (clients k).state = .free

/-- The slot has a thread. -/
def ConnPc.running : ConnPc cfg → Bool
  | .idle => false
  | _ => true

theorem ConnPc.running_eq_false {pc : ConnPc cfg} : pc.running = false ↔ pc = .idle := by
  cases pc <;> simp [running]

namespace Threads

variable [DecidableEq σ] {s : Threads cfg κ σ} {hits : κ → Bool}

omit [DecidableEq κ] [DecidableEq σ] in
/-- A used slot has a thread or is lost, and not both. -/
theorem LostIffHit.used_iff (hs : s.LostIffHit hits) (k : κ) :
    ((s.broker.clients k).state ≠ .free ↔ (s.conn k).running = true ∨ hits k = true) ∧
      ¬((s.conn k).running = true ∧ hits k = true) := by
  rw [← hs.lost k, ← Bool.not_eq_false (ConnPc.running _), ConnPc.running_eq_false]
  refine ⟨⟨fun hstate ↦ ?_, ?_⟩, fun ⟨hbusy, hlost⟩ ↦ hbusy hlost.1⟩
  · by_cases hidle : s.conn k = .idle
    · exact Or.inr ⟨hidle, hstate⟩
    · exact Or.inl hidle
  · rintro (hbusy | hlost)
    · exact fun hfree ↦ hbusy (hs.free k hfree)
    · exact hlost.2

omit [DecidableEq κ] [DecidableEq σ] in
theorem LostIffHit.used (hs : s.LostIffHit hits) (pool : List κ) :
    clientUsedSlots s.broker.clients pool =
      (pool.countP fun k ↦ (s.conn k).running) + pool.countP hits := by
  unfold clientUsedSlots
  induction pool with
  | nil => rfl
  | cons k pool ih =>
      simp only [List.countP_cons, ih]
      obtain ⟨hiff, hnot⟩ := hs.used_iff k
      by_cases hrunning : (s.conn k).running = true <;> by_cases hhit : hits k = true <;>
        simp_all <;> omega

end Threads

namespace Sample

end Sample

end MqttBroker
