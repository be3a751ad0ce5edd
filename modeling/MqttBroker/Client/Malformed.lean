import MqttBroker.Client.Observed

/-!
# Malformed packets

The loop of `client_thread_fn` closes the connection for what it finds wrong with
a fixed header, and the handlers of SUBSCRIBE and UNSUBSCRIBE for a body that
their parser rejects.  `handle_publish` only returns in that case, and a packet
that a server sends is logged as unknown whatever its length.
-/

namespace MqttBroker

variable {cfg : Config} {κ σ : Type}

namespace MqttPacket

/-- CONNACK, SUBACK, UNSUBACK and PINGRESP, which only a server sends. -/
def toClient (pkt : MqttPacket) : Bool :=
  pkt.type = PacketType.connack || pkt.type = PacketType.suback ||
    pkt.type = PacketType.unsuback || pkt.type = PacketType.pingresp

/-- The remaining length is not one that MQTT allows for the type. -/
def wrongLength (pkt : MqttPacket) : Bool :=
  if pkt.type = PacketType.connack ∨ pkt.type = PacketType.unsuback then pkt.remainingLen ≠ 2
  else if pkt.type = PacketType.suback then pkt.remainingLen < 3
  else if pkt.type = PacketType.pingresp then pkt.remainingLen ≠ 0
  else pkt.badRem

/-- A malformed packet after the CONNECT. -/
inductive Malformed (pkt : MqttPacket) : Prop where
  | type (h : pkt.reservedType = true)
  | flags (h : pkt.badFlags = true)
  | length (h : pkt.wrongLength = true)
  | ackId (hack : pkt.isAck = true) (hid : pkt.packetId = 0)
  | publish (htype : pkt.type = PacketType.publish) (h : packetParsePublish pkt = none)
  | subscribe (htype : pkt.type = PacketType.subscribe) (h : packetParseSubscribe pkt 8 = none)
  | unsubscribe (htype : pkt.type = PacketType.unsubscribe)
      (h : packetParseUnsubscribe pkt 8 = none)

theorem wrongLength_cases {pkt : MqttPacket} (h : pkt.wrongLength = true) :
    pkt.toClient = true ∨ pkt.badRem = true := by
  unfold wrongLength at h
  unfold toClient
  split_ifs at h with h₁ h₂ h₃
  · rcases h₁ with h₁ | h₁ <;> simp [h₁]
  · simp [h₂]
  · simp [h₃]
  · exact Or.inr h

/-- The tests on the fixed header let every PUBLISH pass. -/
theorem headerOk_of_publish {pkt : MqttPacket} (h : pkt.type = PacketType.publish) :
    pkt.headerOk = true := by
  simp [headerOk, reservedType, badFlags, badRem, isAck, h, PacketType.publish, PacketType.subscribe,
    PacketType.unsubscribe, PacketType.pubrel, PacketType.puback, PacketType.pubrec,
    PacketType.pubcomp, PacketType.pingreq, PacketType.disconnect]

theorem Malformed.cases_header {pkt : MqttPacket} (h : pkt.Malformed) :
    pkt.headerOk = false ∨
      pkt.headerOk = true ∧ (pkt.type = PacketType.publish ∧ packetParsePublish pkt = none ∨
        pkt.toClient = true ∨
        pkt.type = PacketType.subscribe ∧ packetParseSubscribe pkt 8 = none ∨
        pkt.type = PacketType.unsubscribe ∧ packetParseUnsubscribe pkt 8 = none) := by
  cases hok : pkt.headerOk with
  | false => exact Or.inl rfl
  | true =>
      refine Or.inr ⟨rfl, ?_⟩
      simp only [headerOk, Bool.and_eq_true, Bool.not_eq_true'] at hok
      obtain ⟨⟨⟨htype, hflags⟩, hrem⟩, hid⟩ := hok
      cases h with
      | type h => simp [h] at htype
      | flags h => simp [h] at hflags
      | length h =>
          rcases wrongLength_cases h with h | h
          · exact Or.inr (Or.inl h)
          · simp [h] at hrem
      | ackId hack hzero => simp [hack, hzero] at hid
      | publish htype h => exact Or.inl ⟨htype, h⟩
      | subscribe htype h => exact Or.inr (Or.inr (Or.inl ⟨htype, h⟩))
      | unsubscribe htype h => exact Or.inr (Or.inr (Or.inr ⟨htype, h⟩))

end MqttPacket

/-- The subscriptions, the retained messages, the sessions and the tables of all
connections are the same. -/
structure Broker.SameStores (b b' : Broker cfg κ) : Prop where
  table : b'.table = b.table
  retains : b'.retains = b.retains
  sessions : b'.sessions = b.sessions
  inflight : ∀ k, (b'.clients k).inflight = (b.clients k).inflight
  qos2In : ∀ k, (b'.clients k).qos2In = (b.clients k).qos2In

variable [DecidableEq κ]

theorem Broker.sameStores_updateClient (b : Broker cfg κ) (me : κ) (f : Client → Client)
    (hf : ∀ c, (f c).inflight = c.inflight ∧ (f c).qos2In = c.qos2In) :
    b.SameStores (b.updateClient me f) where
  table := rfl
  retains := rfl
  sessions := rfl
  inflight k := by
    by_cases hk : k = me
    · subst hk
      simp only [updateClient, Function.update_self, hf]
    · simp only [updateClient, Function.update_of_ne hk]
  qos2In k := by
    by_cases hk : k = me
    · subst hk
      simp only [updateClient, Function.update_self, hf]
    · simp only [updateClient, Function.update_of_ne hk]

/-- What the loop of `client_thread_fn` assigns first for every packet. -/
def Broker.seen (b : Broker cfg κ) (me : κ) (now : ℤ) : Broker cfg κ :=
  b.updateClient me fun c ↦ { c with lastSeenMs := now }

variable {env : Env κ} {b : Broker cfg κ} {me : κ} {pkt : MqttPacket}

theorem dispatch_refused (h : pkt.headerOk = false ∨
    pkt.type = PacketType.subscribe ∧ packetParseSubscribe pkt 8 = none ∨
    pkt.type = PacketType.unsubscribe ∧ packetParseUnsubscribe pkt 8 = none) :
    dispatch env b me pkt = some ⟨(b.seen me env.now).close me, []⟩ := by
  cases hok : pkt.headerOk with
  | false => simp [dispatch, hok, Broker.seen]
  | true =>
      rcases h with h | ⟨htype, h⟩ | ⟨htype, h⟩
      · simp [hok] at h
      all_goals
        simp [dispatch, hok, dispatchType, htype, handleSubscribe, handleUnsubscribe, h, Broker.seen,
          PacketType.connect, PacketType.publish, PacketType.subscribe, PacketType.unsubscribe]

theorem dispatch_ignored (hok : pkt.headerOk = true)
    (h : pkt.type = PacketType.publish ∧ packetParsePublish pkt = none ∨ pkt.toClient = true) :
    dispatch env b me pkt = some ⟨b.seen me env.now, []⟩ := by
  rcases h with ⟨htype, h⟩ | h
  · simp [dispatch, hok, dispatchType, htype, handlePublish, h, Broker.seen, PacketType.connect,
      PacketType.publish]
  · simp only [MqttPacket.toClient, Bool.or_eq_true, decide_eq_true_eq] at h
    rcases h with ((h | h) | h) | h <;>
      simp only [dispatch, hok, dispatchType, h, Broker.seen] <;> rfl

theorem publishBegin_malformed (h : pkt.Malformed) : publishBegin env b me pkt = none := by
  by_cases htype : pkt.type = PacketType.publish
  · have hparse : packetParsePublish pkt = none := by
      rcases h.cases_header with hok | ⟨-, ⟨-, h⟩ | h | ⟨h, -⟩ | ⟨h, -⟩⟩
      · rw [MqttPacket.headerOk_of_publish htype] at hok
        cases hok
      · exact h
      · simp only [MqttPacket.toClient, htype] at h
        cases h
      · cases htype.symm.trans h
      · cases htype.symm.trans h
    simp [publishBegin, hparse]
  · simp [publishBegin, htype]

theorem Broker.sameStores_seen (b : Broker cfg κ) (k : κ) (now : ℤ) :
    b.SameStores (b.seen k now) :=
  b.sameStores_updateClient k _ fun _ ↦ ⟨rfl, rfl⟩

theorem Broker.seen_state (b : Broker cfg κ) (k : κ) (now : ℤ) :
    ((b.seen k now).clients k).state = (b.clients k).state := by
  simp [Broker.seen, Broker.updateClient]

theorem Broker.sameStores_close (b : Broker cfg κ) (k : κ) (now : ℤ) :
    (((b.seen k now).close k).clients k).state ≠ .connected ∧
      b.SameStores ((b.seen k now).close k) := by
  refine ⟨by simp [Broker.close, Broker.updateClient], ?_⟩
  have hclose := (b.seen k now).sameStores_updateClient k
    (fun c ↦ { c with state := .disconnecting }) fun _ ↦ ⟨rfl, rfl⟩
  have hseen := b.sameStores_seen k now
  exact ⟨hclose.table.trans hseen.table, hclose.retains.trans hseen.retains,
    hclose.sessions.trans hseen.sessions, fun j ↦ (hclose.inflight j).trans (hseen.inflight j),
    fun j ↦ (hclose.qos2In j).trans (hseen.qos2In j)⟩

namespace Threads

variable [DecidableEq σ] {s : Threads cfg κ σ} {k : κ}

/-- Connection `k` is closed, and no store has changed. -/
def ClosesOnly (s s' : Threads cfg κ σ) (k : κ) : Prop :=
  (s'.broker.clients k).state ≠ .connected ∧ s.broker.SameStores s'.broker

/-- The packet is not one that `client_thread_fn` ignores when it is malformed. -/
def Caught (s : Threads cfg κ σ) (k : κ) (pkt : MqttPacket) : Prop :=
  (s.broker.clients k).state = .connected →
    pkt.type ≠ PacketType.publish ∧ ¬ (pkt.toClient = true ∧ pkt.headerOk = true)

/-- A malformed packet closes the connection and changes nothing else if and only if
the connection is no longer up, or the packet is neither a PUBLISH nor one that
only a server sends, with the right flags. -/
theorem malformed_closes_iff (hpc : s.conn k = .recv) (hbad : pkt.Malformed) :
    ∃ s', s.step (.packet k env pkt) = some s' ∧ (s.ClosesOnly s' k ↔ s.Caught k pkt) := by
  have hstate := s.broker.seen_state k env.now
  by_cases hlate : pkt.headerOk = true ∧ (s.broker.clients k).state ≠ .connected
  · refine ⟨s.goTo k (s.broker.seen k env.now) .closeFd, ?_, ?_⟩
    · simp only [step, hpc, if_pos hlate, Broker.seen]
    · unfold ClosesOnly
      rw [goTo_broker, hstate]
      exact iff_of_true ⟨hlate.2, s.broker.sameStores_seen k env.now⟩ fun h ↦ absurd h hlate.2
  have hstep : ∀ h : Handled cfg κ, dispatch env s.broker k pkt = some h →
      s.step (.packet k env pkt) = some (s.goTo k h.broker .loop) := by
    intro h hrun
    simp only [step, hpc, if_neg hlate, publishBegin_malformed hbad, hrun, Option.map_some]
  have hrefused : dispatch env s.broker k pkt = some ⟨(s.broker.seen k env.now).close k, []⟩ →
      pkt.type ≠ PacketType.publish ∧ ¬ (pkt.toClient = true ∧ pkt.headerOk = true) →
      ∃ s', s.step (.packet k env pkt) = some s' ∧ (s.ClosesOnly s' k ↔ s.Caught k pkt) :=
    fun hrun hother ↦ ⟨_, hstep _ hrun,
      iff_of_true (s.broker.sameStores_close k env.now) fun _ ↦ hother⟩
  rcases hbad.cases_header with hok | ⟨hok, hcase⟩
  · refine hrefused (dispatch_refused (Or.inl hok)) ⟨fun htype ↦ ?_, fun h ↦ ?_⟩
    · rw [MqttPacket.headerOk_of_publish htype] at hok
      cases hok
    · rw [h.2] at hok
      cases hok
  have hup : (s.broker.clients k).state = .connected := not_not.mp fun h ↦ hlate ⟨hok, h⟩
  have hignored : pkt.type = PacketType.publish ∧ packetParsePublish pkt = none ∨
      pkt.toClient = true →
        ∃ s', s.step (.packet k env pkt) = some s' ∧ (s.ClosesOnly s' k ↔ s.Caught k pkt) := by
    intro h
    refine ⟨_, hstep _ (dispatch_ignored hok h), ?_⟩
    unfold ClosesOnly
    rw [goTo_broker, hstate]
    refine iff_of_false (fun hdown ↦ hdown.1 hup) fun hother ↦ ?_
    exact h.elim (fun h ↦ (hother hup).1 h.1) fun h ↦ (hother hup).2 ⟨h, hok⟩
  rcases hcase with h | h | h | h
  · exact hignored (Or.inl h)
  · exact hignored (Or.inr h)
  · refine hrefused (dispatch_refused (Or.inr (Or.inl h))) ⟨?_, fun hclient ↦ ?_⟩
    · simp [h.1, PacketType.publish, PacketType.subscribe]
    · simp only [MqttPacket.toClient, h.1] at hclient
      cases hclient.1
  · refine hrefused (dispatch_refused (Or.inr (Or.inr h))) ⟨?_, fun hclient ↦ ?_⟩
    · simp [h.1, PacketType.publish, PacketType.unsubscribe]
    · simp only [MqttPacket.toClient, h.1] at hclient
      cases hclient.1

end Threads

namespace Sample

/-- PUBLISH of `x` to `t` with both QoS bits set. -/
def qos3Pkt : MqttPacket := ⟨0x36, 6, [0, 1, 0x74, 0, 1, 0x78]⟩

end Sample

/-- The statement at a packet of the reserved type 15. -/
theorem malformed_closes_iff_reserved : ∃ s s' : Threads Config.posix ℕ Unit,
    Threads.ReachBy (fun _ _ ↦ True) s ∧
      s.step (.packet 0 Sample.env ⟨0xF0, 0, []⟩) = some s' ∧ s.ClosesOnly s' 0 := by
  obtain ⟨s, hend, hreach⟩ := Sample.upEnd_reach
  have hpc := (Sample.upEnd_recv hend).1
  have hbad : (⟨0xF0, 0, []⟩ : MqttPacket).Malformed := .type (by decide)
  obtain ⟨s', hstep, hiff⟩ : ∃ s', s.step (.packet 0 Sample.env ⟨0xF0, 0, []⟩) = some s' ∧
    (s.ClosesOnly s' 0 ↔ s.Caught 0 ⟨0xF0, 0, []⟩) := Threads.malformed_closes_iff hpc hbad
  exact ⟨s, s', hreach, hstep, hiff.mpr fun _ ↦ ⟨by decide, by decide⟩⟩

/-- A PUBLISH with QoS 3 leaves the connection as it is. -/
theorem qos3_not_closed : ∃ s s' : Threads Config.posix ℕ Unit,
    Threads.ReachBy (fun _ _ ↦ True) s ∧ s.conn 0 = .recv ∧ Sample.qos3Pkt.Malformed ∧
      s.step (.packet 0 Sample.env Sample.qos3Pkt) = some s' ∧
      (s'.broker.clients 0).state = .connected := by
  obtain ⟨s, hend, hreach⟩ := Sample.upEnd_reach
  obtain ⟨hpc, hstate⟩ := Sample.upEnd_recv hend
  have hbad : Sample.qos3Pkt.Malformed := .publish (by decide) (by decide)
  refine ⟨s, s.goTo 0 (s.broker.seen 0 Sample.env.now) .loop, hreach, hpc, hbad, ?_, ?_⟩
  · have hrun : dispatch Sample.env s.broker 0 Sample.qos3Pkt =
        some ⟨s.broker.seen 0 Sample.env.now, []⟩ :=
      dispatch_ignored (by decide) (Or.inl ⟨by decide, by decide⟩)
    simp [Threads.step, hpc, hstate, publishBegin_malformed hbad, hrun]
  · rw [Threads.goTo_broker, Broker.seen_state]
    exact hstate

end MqttBroker
