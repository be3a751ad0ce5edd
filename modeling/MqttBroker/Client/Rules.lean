import MqttBroker.Client.Connect

/-!
# A rule for the handlers

The handlers behind `client_thread_fn` change a broker through few functions.
A relation between brokers that allows those allows every handled packet.
-/

namespace MqttBroker

variable {cfg : Config} {κ : Type}

/-- What a handler assigns to a connection outside of sending: the state is kept
or becomes DISCONNECTING, and a will is only dropped. -/
inductive Client.Mark : Client → Client → Prop where
  | mk (c : Client) {state : ClientState} (hstate : state = c.state ∨ state = .disconnecting)
      (lastSeenMs : ℤ) (hasWill : Bool) (qos2In : Qos2Table)
      (hwill : hasWill = true → c.hasWill = true := by simp) :
      Mark c { c with
        state := state, lastSeenMs := lastSeenMs, hasWill := hasWill, qos2In := qos2In }

/-- What handling a PUBLISH requires of its message before it is published. -/
structure MqttPublish.Accepted (pub : MqttPublish) : Prop where
  parsed : ∃ pkt, packetParsePublish pkt = some pub
  topic_ne : pub.topic ≠ []
  no_wildcard : hasWildcard pub.topic = false

/-- What the handlers but that of DISCONNECT assign to a connection outside of
sending. -/
inductive Client.Assign : Client → Client → Prop where
  | close (c : Client) : Assign c { c with state := .disconnecting }
  | qos2In (c : Client) (q : Qos2Table) : Assign c { c with qos2In := q }

theorem Client.Assign.mark {c c' : Client} (h : Client.Assign c c') : Client.Mark c c' := by
  cases h with
  | close => exact .mk c (Or.inr rfl) _ _ _
  | qos2In q => exact .mk c (Or.inl rfl) _ _ _

/-- The changes that the handlers of connection `me` but that of DISCONNECT are
made of are in `R`. -/
structure DispatchRule [DecidableEq κ] (me : κ) (R : Broker cfg κ → Broker cfg κ → Prop) :
    Prop where
  refl : ∀ b, R b b
  trans : ∀ {a b c}, R a b → R b c → R a c
  subscribe : ∀ b filter qos, filter.length < MQTT_TOPIC_MAX → topicFilterValid filter = true →
    qos ≤ 2 → R b { b with table := (b.table.topicSubscribe me filter qos).1 }
  unsubscribe : ∀ b filter r, b.table.topicUnsubscribe me filter = some r →
    R b { b with table := r.1 }
  assign : ∀ b (f : Client → Client), (∀ c, Client.Assign c (f c)) → R b (b.updateClient me f)
  send : ∀ b sendOk, R b (b.updateClient me (·.clientSend sendOk))
  ack : ∀ b id, R b (b.updateClient me (·.inflightAck id))
  pubrec : ∀ b id now sendOk,
    R b (b.updateClient me fun _ ↦ ((b.clients me).pubrec id now sendOk).1)
  retained : ∀ b filter qos now sendOk, R b (b.updateClient me fun _ ↦
    (topicDeliverRetained b.retains (b.clients me) filter qos now sendOk).1)
  publish : ∀ env b (pub : MqttPublish) r, pub.Accepted → topicPublish env b pub = some r →
    R b r.broker

namespace DispatchRule

variable [DecidableEq κ] {me : κ} {R : Broker cfg κ → Broker cfg κ → Prop}
  (hR : DispatchRule me R)

include hR

theorem close (b : Broker cfg κ) : R b (b.close me) :=
  hR.assign b _ fun c ↦ .close c

theorem reply (env : Env κ) (frame : Option Bytes) (h : Handled cfg κ) :
    R h.broker (h.reply env me frame).broker := by
  cases frame with
  | none => exact hR.refl _
  | some frame => exact hR.send _ (env.sendOk me)

theorem callPublish {env : Env κ} {b : Broker cfg κ} {pub : MqttPublish} {h : Handled cfg κ}
    (hpub : pub.Accepted) (hrun : callPublish env b pub = some h) : R b h.broker := by
  obtain ⟨r, hr, rfl⟩ := Option.map_eq_some_iff.mp hrun
  exact hR.publish env b pub r hpub hr

theorem publishAccepted {env : Env κ} {b : Broker cfg κ} {pub : MqttPublish}
    {h : Handled cfg κ} (hpub : pub.Accepted) (hrun : publishAccepted env b me pub = some h) :
    R b h.broker := by
  unfold MqttBroker.publishAccepted at hrun
  dsimp only at hrun
  split_ifs at hrun
  · cases hslot : (b.clients me).qos2In.slot pub.packetId with
    | free i =>
        rw [hslot] at hrun
        obtain ⟨h', hcall, hrun⟩ := Option.bind_eq_some_iff.mp hrun
        obtain rfl := Option.some.inj hrun
        have hstore : R b (b.updateClient me (·.qos2Store i pub.packetId)) :=
          hR.assign b _ fun c ↦ .qos2In c _
        exact hR.trans hstore (hR.trans (hR.callPublish hpub hcall) (hR.reply env _ h'))
    | dup =>
        rw [hslot] at hrun
        obtain rfl := Option.some.inj hrun
        exact hR.reply env _ ⟨b, []⟩
    | full =>
        rw [hslot] at hrun
        obtain rfl := Option.some.inj hrun
        exact hR.reply env _ ⟨b, []⟩
  · obtain ⟨h', hcall, hrun⟩ := Option.bind_eq_some_iff.mp hrun
    obtain rfl := Option.some.inj hrun
    exact hR.trans (hR.callPublish hpub hcall) (hR.reply env _ h')
  · obtain ⟨h', hcall, hrun⟩ := Option.bind_eq_some_iff.mp hrun
    obtain rfl := Option.some.inj hrun
    exact hR.callPublish hpub hcall

theorem handlePublish {env : Env κ} {b : Broker cfg κ} {pkt : MqttPacket}
    {h : Handled cfg κ} (hrun : handlePublish env b me pkt = some h) : R b h.broker := by
  unfold MqttBroker.handlePublish at hrun
  split at hrun
  · obtain rfl := Option.some.inj hrun
    exact hR.refl b
  · rename_i pub hparse
    split_ifs at hrun with hqos htopic hid
    iterate 3
      · obtain rfl := Option.some.inj hrun
        exact hR.close b
    obtain ⟨hne, hplain⟩ := not_or.mp htopic
    exact hR.publishAccepted ⟨⟨pkt, hparse⟩, hne, by simpa using hplain⟩ hrun

theorem handleSubscribe (env : Env κ) (b : Broker cfg κ) (pkt : MqttPacket) :
    R b (handleSubscribe env b me pkt).broker := by
  have hretained : ∀ (l : List ((CStr × UInt8) × UInt8)) (h : Handled cfg κ),
      R h.broker (l.foldl (retainedOne env me) h).broker := by
    intro l
    induction l with
    | nil => exact fun h ↦ hR.refl _
    | cons e l ih =>
        intro h
        refine hR.trans ?_ (ih _)
        unfold retainedOne
        split_ifs
        · exact hR.refl _
        · exact hR.retained h.broker e.1.1 e.1.2 env.now (env.sendOk me)
  have htable : ∀ (l : List (CStr × UInt8)), (∀ e ∈ l, e.1.length < MQTT_TOPIC_MAX) →
      ∀ r : TopicTable cfg κ × Bytes × List Notify,
        R { b with table := r.1 } { b with table := (l.foldl (subscribeOne me) r).1 } := by
    intro l
    induction l with
    | nil => exact fun _ r ↦ hR.refl _
    | cons e l ih =>
        intro hl r
        refine hR.trans ?_ (ih (fun e he ↦ hl e (List.mem_cons_of_mem _ he)) _)
        unfold subscribeOne
        split_ifs with hbad
        · exact hR.refl _
        · obtain ⟨hqos, hvalid⟩ := not_or.mp hbad
          exact hR.subscribe { b with table := r.1 } e.1 e.2 (hl e List.mem_cons_self)
            (by simpa using hvalid) (UInt8.not_lt.mp hqos)
  unfold MqttBroker.handleSubscribe
  split
  · exact hR.close b
  · rename_i topics hparse
    have htable := htable topics (fun e he ↦ (packetParseSubscribe_fits hparse e he).1) (b.table, [], [])
    dsimp only
    generalize List.foldl (subscribeOne me) _ _ = r at htable
    refine hR.trans htable (hR.trans ?_ (hretained _ _))
    exact hR.reply env _ ⟨{ b with table := r.1 }, r.2.2.map .notify⟩

theorem unsubscribeEach {b : Broker cfg κ} {l : List CStr} {t : TopicTable cfg κ}
    {r : TopicTable cfg κ × Bool × List Notify} (hrun : unsubscribeEach me l t = some r) :
    R { b with table := t } { b with table := r.1 } := by
  induction l generalizing t r with
  | nil =>
      obtain rfl := Option.some.inj hrun
      exact hR.refl _
  | cons f l ih =>
      unfold MqttBroker.unsubscribeEach at hrun
      split_ifs at hrun
      · obtain rfl := Option.some.inj hrun
        exact hR.refl _
      · obtain ⟨r₁, hfirst, hrun⟩ := Option.bind_eq_some_iff.mp hrun
        obtain ⟨r₂, hrest, hrun⟩ := Option.bind_eq_some_iff.mp hrun
        obtain rfl := Option.some.inj hrun
        exact hR.trans (hR.unsubscribe { b with table := t } f r₁ hfirst) (ih (r := r₂) hrest)

theorem handleUnsubscribe {env : Env κ} {b : Broker cfg κ} {pkt : MqttPacket}
    {h : Handled cfg κ} (hrun : handleUnsubscribe env b me pkt = some h) : R b h.broker := by
  unfold MqttBroker.handleUnsubscribe at hrun
  split at hrun
  · obtain rfl := Option.some.inj hrun
    exact hR.close b
  · obtain ⟨⟨t, ok, n⟩, htable, hrun⟩ := Option.bind_eq_some_iff.mp hrun
    obtain rfl := Option.some.inj hrun
    refine hR.trans (hR.unsubscribeEach (b := b) htable) ?_
    dsimp only
    split_ifs
    · exact hR.reply env _ ⟨{ b with table := t }, n.map .notify⟩
    · exact hR.close { b with table := t }

/-- Every packet but DISCONNECT changes the broker in the allowed ways only. -/
theorem dispatchType {env : Env κ} {b : Broker cfg κ} {pkt : MqttPacket} {h : Handled cfg κ}
    (hne : pkt.type ≠ PacketType.disconnect) (hrun : dispatchType env b me pkt = some h) :
    R b h.broker := by
  cases dispatchType_cases hrun with
  | connect => exact hR.close b
  | publish _ hrun => exact hR.handlePublish hrun
  | subscribe => exact hR.handleSubscribe env b pkt
  | unsubscribe _ hrun => exact hR.handleUnsubscribe hrun
  | pingreq => exact hR.reply env _ ⟨b, []⟩
  | disconnect htype => exact absurd htype hne
  | ack => exact hR.ack b pkt.packetId
  | pubrec => exact hR.pubrec b pkt.packetId env.now (env.sendOk me)
  | pubrel =>
      have hrelease := hR.assign b (·.qos2Release pkt.packetId) fun c ↦ .qos2In c _
      exact hR.trans hrelease (hR.reply env (packetBuildPubcomp pkt.packetId 4)
        ⟨b.updateClient me (·.qos2Release pkt.packetId), []⟩)
  | ignored => exact hR.refl b

end DispatchRule

/-- The changes that the handlers of connection `me` are made of are in `R`. -/
structure HandlerRule [DecidableEq κ] (me : κ) (R : Broker cfg κ → Broker cfg κ → Prop) :
    Prop where
  refl : ∀ b, R b b
  trans : ∀ {a b c}, R a b → R b c → R a c
  subscribe : ∀ b filter qos, filter.length < MQTT_TOPIC_MAX → topicFilterValid filter = true →
    qos ≤ 2 → R b { b with table := (b.table.topicSubscribe me filter qos).1 }
  unsubscribe : ∀ b filter r, b.table.topicUnsubscribe me filter = some r →
    R b { b with table := r.1 }
  mark : ∀ b (f : Client → Client), (∀ c, Client.Mark c (f c)) → R b (b.updateClient me f)
  send : ∀ b sendOk, R b (b.updateClient me (·.clientSend sendOk))
  ack : ∀ b id, R b (b.updateClient me (·.inflightAck id))
  pubrec : ∀ b id now sendOk,
    R b (b.updateClient me fun _ ↦ ((b.clients me).pubrec id now sendOk).1)
  retained : ∀ b filter qos now sendOk, R b (b.updateClient me fun _ ↦
    (topicDeliverRetained b.retains (b.clients me) filter qos now sendOk).1)
  publish : ∀ env b (pub : MqttPublish) r, pub.Accepted → topicPublish env b pub = some r →
    R b r.broker

namespace HandlerRule

variable [DecidableEq κ] {me : κ} {R : Broker cfg κ → Broker cfg κ → Prop}
  (hR : HandlerRule me R)

include hR

theorem toDispatchRule : DispatchRule me R where
  refl := hR.refl
  trans := hR.trans
  subscribe := hR.subscribe
  unsubscribe := hR.unsubscribe
  assign b f hf := hR.mark b f fun c ↦ (hf c).mark
  send := hR.send
  ack := hR.ack
  pubrec := hR.pubrec
  retained := hR.retained
  publish := hR.publish

theorem seen (now : ℤ) (b : Broker cfg κ) :
    R b (b.updateClient me fun c ↦ { c with lastSeenMs := now }) :=
  hR.mark b _ fun c ↦ .mk c (Or.inl rfl) _ _ _

theorem close (b : Broker cfg κ) : R b (b.close me) := hR.toDispatchRule.close b

theorem reply (env : Env κ) (frame : Option Bytes) (h : Handled cfg κ) :
    R h.broker (h.reply env me frame).broker := hR.toDispatchRule.reply env frame h

theorem handleDisconnect (b : Broker cfg κ) : R b (handleDisconnect b me).broker := by
  have hwill := hR.mark b (fun c ↦ { c with hasWill := false }) fun c ↦
    .mk c (Or.inl rfl) _ _ _
  exact hR.trans hwill (hR.close _)

/-- A handled packet changes the broker in the allowed ways only. -/
theorem dispatch {env : Env κ} {b : Broker cfg κ} {pkt : MqttPacket} {h : Handled cfg κ}
    (hrun : dispatch env b me pkt = some h) : R b h.broker := by
  have hseen := hR.seen env.now b
  unfold MqttBroker.dispatch at hrun
  dsimp only at hrun
  generalize b.updateClient me (fun c ↦ { c with lastSeenMs := env.now }) = b' at hseen hrun
  refine hR.trans hseen ?_
  rcases ite_eq_iff.mp hrun with ⟨-, hrun⟩ | ⟨-, hrun⟩
  · obtain rfl := Option.some.inj hrun
    exact hR.close b'
  by_cases hdisc : pkt.type = PacketType.disconnect
  · rw [dispatchType_disconnect hdisc] at hrun
    obtain rfl := Option.some.inj hrun
    exact hR.handleDisconnect b'
  · exact hR.toDispatchRule.dispatchType hdisc hrun

end HandlerRule

/-! ## The rest of a CONNECT -/

/-- The changes that `handle_connect` makes after `client_t` is filled in. -/
structure ConnectRule [DecidableEq κ] (me : κ) (R : Broker cfg κ → Broker cfg κ → Prop) : Prop
    extends HandlerRule me R where
  sessions : ∀ b p, R b { b with sessions := p }
  restore : ∀ b filter qos, R b { b with table := (b.table.topicSubscribe me filter qos).1 }
  drain : ∀ b (x : Session) now sendOk,
    R b (b.updateClient me fun _ ↦ (x.drain (b.clients me) now sendOk).2.1)

namespace ConnectRule

variable [DecidableEq κ] {me : κ} {R : Broker cfg κ → Broker cfg κ → Prop}
  (hR : ConnectRule me R)

include hR

theorem updateSession (b : Broker cfg κ) (s : SessionSlot cfg) (f : Session → Session) :
    R b (b.updateSession s f) := hR.sessions b _

theorem resumeSession (env : Env κ) (s : SessionSlot cfg) (h : Handled cfg κ) :
    R h.broker (resumeSession env me s h).broker := by
  have hrestore : ∀ (l : List (Fin SESSION_SUB_MAX)) (h : Handled cfg κ),
      R h.broker (l.foldl (restoreOne me s) h).broker := by
    intro l
    induction l with
    | nil => exact fun h ↦ hR.refl h.broker
    | cons i l ih =>
        intro h
        refine hR.trans ?_ (ih _)
        unfold restoreOne
        split_ifs
        · exact hR.restore h.broker _ _
        · exact hR.refl h.broker
  have hdrain : ∀ h : Handled cfg κ, R h.broker (drainSession env me s h).broker := fun h ↦
    hR.trans (hR.updateSession h.broker s _)
      (hR.drain (h.broker.updateSession s _) (h.broker.session s) env.now (env.sendOk me))
  have honline : ∀ h : Handled cfg κ, R h.broker (markOnline s h).broker := fun h ↦
    hR.updateSession h.broker s fun x ↦ { x with offline := false }
  exact hR.trans (hrestore (List.finRange SESSION_SUB_MAX) h)
    (hR.trans (honline _) (hdrain (markOnline s _)))

/-- `handle_connect` after `client_takeover` and the assignments to `client_t`. -/
theorem connectAccepted (env : Env κ) (b : Broker cfg κ) (conn : MqttConnect) :
    R ((clientTakeover b me conn.clientId).updateClient me (·.connectFields conn))
      (connectAccepted env b me conn).broker := by
  have hgreet : R ((clientTakeover b me conn.clientId).updateClient me (·.connectFields conn))
      (connectGreet env b me conn).1.broker := by
    unfold connectGreet
    dsimp only
    generalize (clientTakeover b me conn.clientId).updateClient me _ = b₀
    generalize connectSession b₀.sessions env.callocOk conn = r
    exact hR.trans (hR.sessions b₀ r.1) (hR.reply env _ ⟨{ b₀ with sessions := r.1 }, []⟩)
  unfold MqttBroker.connectAccepted
  generalize connectGreet env b me conn = r at hgreet
  obtain ⟨h, sess, present⟩ := r
  rcases sess with - | s <;> cases present
  · exact hgreet
  · exact hgreet
  · exact hgreet
  · exact hR.trans hgreet (hR.resumeSession env s h)

end ConnectRule

end MqttBroker
