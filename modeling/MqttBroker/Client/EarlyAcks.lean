import MqttBroker.Client.Tracking
import MqttBroker.Client.Reuse

/-!
# Acknowledgements that come early

A publisher's thread sends a message and stores it after that, and in between
the subscriber's thread may handle the acknowledgement.
-/

namespace MqttBroker

open Observer

variable {cfg : Config} {κ σ : Type}

/-! ## Retransmission -/

/-- `client_inflight_retry` will send a message with this id and QoS again as a PUBLISH. -/
def InflightTable.Resends {n : ℕ} (T : InflightTable n) (id : UInt16) (qos : UInt8) : Prop :=
  ∃ i, (T i).inUse = true ∧ (T i).packetId = id ∧ (T i).qos = qos ∧
    ¬ (qos = 2 ∧ (T i).waitingPubcomp = true)

instance {n : ℕ} (T : InflightTable n) (id : UInt16) (qos : UInt8) : Decidable (T.Resends id qos) :=
  inferInstanceAs (Decidable (∃ _, _ ∧ _ ∧ _ ∧ _))

/-- The ids of the messages in flight are different. -/
def InflightTable.OneOf {n : ℕ} (T : InflightTable n) (id : UInt16) : Prop :=
  ∀ i j, (T i).inUse = true → (T j).inUse = true → (T i).packetId = id → (T j).packetId = id → i = j

instance {n : ℕ} (T : InflightTable n) (id : UInt16) : Decidable (T.OneOf id) :=
  inferInstanceAs (Decidable (∀ _ _, _ → _ → _ → _ → _))

namespace InflightTable

variable {n : ℕ} {T T' : InflightTable n} {id id' : UInt16} {qos : UInt8}

/-- The frames of the messages that `Resends` is about. -/
theorem resends_iff_retry : T.Resends id qos ↔ ∃ i now frame, (T i).packetId = id ∧
    (T i).qos = qos ∧ ¬ (qos = 2 ∧ (T i).waitingPubcomp = true) ∧
      (Client.retryEntry now (T i)).2 = some frame := by
  constructor
  · rintro ⟨i, huse, hid, hqos, hwait⟩
    obtain ⟨frame, hframe⟩ : ∃ frame, (Client.retryEntry
        ((T i).sentAtMs + CLIENT_INFLIGHT_RETRY_MS) (T i)).2 = some frame := by
      simp [Client.retryEntry, huse]
    exact ⟨i, _, frame, hid, hqos, hwait, hframe⟩
  · rintro ⟨i, now, frame, hid, hqos, hwait, hretry⟩
    refine ⟨i, ?_, hid, hqos, hwait⟩
    by_contra huse
    rw [Client.retryEntry, if_pos (.inl (by simpa using huse))] at hretry
    cases hretry

theorem resends_release (h : (T.release id').Resends id qos) : T.Resends id qos := by
  obtain ⟨i, huse, hid, hqos, hwait⟩ := h
  rw [release_apply] at huse hid hqos hwait
  split_ifs at huse hid hqos hwait
  exact ⟨i, huse, hid, hqos, hwait⟩

/-- A PUBACK takes the only message with its id. -/
theorem not_resends_release (hone : T.OneOf id) : ¬ (T.release id).Resends id qos := by
  rintro ⟨i, huse, hid, -⟩
  rw [release_apply] at huse hid
  split_ifs at huse hid with hacked
  have hsome : (T.acked id).isSome = true :=
    List.find?_isSome.mpr ⟨i, List.mem_finRange i, by simp [huse, hid]⟩
  obtain ⟨j, hj⟩ := Option.isSome_iff_exists.mp hsome
  obtain ⟨hjuse, hjid⟩ := acked_some hj
  exact hacked (hone i j huse hjuse hid hjid ▸ hj)

theorem resends_retry (hkept : ∀ i, (T i).Kept (T' i))
    (hwait : ∀ i, (T' i).waitingPubcomp = (T i).waitingPubcomp) (h : T'.Resends id qos) :
    T.Resends id qos := by
  obtain ⟨i, huse, hid, hqos, hnot⟩ := h
  exact ⟨i, (hkept i).inUse.symm.trans huse, (hkept i).packetId.symm.trans hid,
    (hkept i).qos.symm.trans hqos, by rwa [hwait i] at hnot⟩

end InflightTable

namespace Client

variable {c : Client} {id id' : UInt16} {qos : UInt8}

theorem resends_pubrec {now : ℤ} {sendOk : Bool}
    (h : InflightTable.Resends (c.pubrec id' now sendOk).1.inflight id qos) :
    InflightTable.Resends c.inflight id qos := by
  rcases c.pubrec_inflight id' now sendOk with heq | ⟨j, rel, -, hqos, -, heq⟩
  · rwa [heq] at h
  · rw [heq] at h
    obtain ⟨i, huse, hid, hq, hwait⟩ := h
    by_cases hi : i = j
    · subst hi
      simp only [Function.update_self] at hq hwait
      exact absurd ⟨hq.symm.trans hqos, trivial⟩ hwait
    · simp only [Function.update_of_ne hi] at huse hid hq hwait
      exact ⟨i, huse, hid, hq, hwait⟩

/-- A PUBREC takes the only message with its id. -/
theorem not_resends_pubrec {now : ℤ} {sendOk : Bool} (hone : InflightTable.OneOf c.inflight id)
    (hne : id ≠ 0) :
    ¬ InflightTable.Resends (c.pubrec id now sendOk).1.inflight id 2 := by
  intro h
  obtain ⟨i, huse, hid, hqos, hwait⟩ := resends_pubrec h
  unfold pubrec at h
  split at h
  · next hnone =>
      have hi := List.find?_eq_none.mp hnone i (List.mem_finRange i)
      simp only [not_and, Bool.not_eq_true, true_implies] at hwait
      simp [huse, hid, hqos, hwait] at hi
  · next j hfind =>
      have hj := List.find?_some hfind
      simp only [Bool.and_eq_true, decide_eq_true_eq] at hj
      obtain ⟨⟨⟨hjuse, hjid⟩, -⟩, -⟩ := hj
      obtain rfl := hone i j huse hjuse hid hjid
      split at h
      · next hbuild => simp [packetBuildPubrel, packetBuildAck, hne] at hbuild
      · obtain ⟨k, hkuse, hkid, hkqos, hkwait⟩ := h
        dsimp only at hkuse hkid hkqos hkwait
        rw [clientSend_inflight] at hkuse hkid hkqos hkwait
        by_cases hk : k = i
        · subst hk
          simp at hkwait
        · rw [Function.update_of_ne hk] at hkuse hkid
          exact hk (hone k i hkuse huse hkid hid)

/-- Storing a message with another id. -/
theorem resends_inflightStore {buf : Bytes} {q : UInt8} {now : ℤ} (hne : id ≠ id')
    (h : InflightTable.Resends (c.inflightStore id' buf q now).inflight id qos) :
    InflightTable.Resends c.inflight id qos := by
  rw [inflightStore_inflight] at h
  cases hfree : InflightTable.free c.inflight with
  | none => rwa [hfree] at h
  | some j =>
      rw [hfree] at h
      obtain ⟨i, huse, hid, hq, hwait⟩ := h
      by_cases hi : i = j
      · subst hi
        simp only [Function.update_self] at hid
        exact absurd hid.symm hne
      · simp only [Function.update_of_ne hi] at huse hid hq hwait
        exact ⟨i, huse, hid, hq, hwait⟩

end Client

/-! ## What the other steps leave alone -/

section

variable [DecidableEq κ] {env : Env κ} {b b' : Broker cfg κ} {me : κ}

/-- The tables of the messages in flight are the same. -/
def Broker.SameInflight (b b' : Broker cfg κ) : Prop :=
  ∀ k, (b'.clients k).inflight = (b.clients k).inflight

/-- Only connection `me` may have changed. -/
def Broker.OnlyClient (me : κ) (b b' : Broker cfg κ) : Prop :=
  ∀ k, k ≠ me → b'.clients k = b.clients k

namespace Broker

theorem onlyClient_update (b : Broker cfg κ) (f : Client → Client) :
    b.OnlyClient me (b.updateClient me f) := fun _ hk ↦ Function.update_of_ne hk _ _

omit [DecidableEq κ] in
theorem OnlyClient.trans {b'' : Broker cfg κ} (h : b.OnlyClient me b') (h' : b'.OnlyClient me b'') :
    b.OnlyClient me b'' := fun k hk ↦ (h' k hk).trans (h k hk)

theorem OnlyClient.sameInflight (h : b.OnlyClient me b')
    (hme : (b'.clients me).inflight = (b.clients me).inflight) : b.SameInflight b' := by
  intro k
  by_cases hk : k = me
  · rw [hk, hme]
  · rw [h k hk]

omit [DecidableEq κ] in
theorem SameInflight.trans {b'' : Broker cfg κ} (h : b.SameInflight b') (h' : b'.SameInflight b'') :
    b.SameInflight b'' := fun k ↦ (h' k).trans (h k)

theorem sameInflight_update (b : Broker cfg κ) (me : κ) (f : Client → Client)
    (hf : (f (b.clients me)).inflight = (b.clients me).inflight) :
    b.SameInflight (b.updateClient me f) := by
  refine (b.onlyClient_update f).sameInflight ?_
  exact (congrArg Client.inflight (Function.update_self _ _ _)).trans hf

theorem sameInflight_close (b : Broker cfg κ) (me : κ) : b.SameInflight (b.close me) :=
  b.sameInflight_update me _ rfl

theorem sameInflight_send (b : Broker cfg κ) (me : κ) (sendOk : Bool) :
    b.SameInflight (b.updateClient me (·.clientSend sendOk)) :=
  b.sameInflight_update me _ (Client.clientSend_inflight _ _)

end Broker

theorem Handled.sameInflight_reply (env : Env κ) (me : κ) (frame : Option Bytes)
    (h : Handled cfg κ) : h.broker.SameInflight (h.reply env me frame).broker := by
  cases frame with
  | none => exact fun _ ↦ rfl
  | some frame => exact h.broker.sameInflight_send me (env.sendOk me)

theorem handleSubscribe_onlyClient (env : Env κ) (b : Broker cfg κ) (me : κ) (pkt : MqttPacket) :
    b.OnlyClient me (handleSubscribe env b me pkt).broker := by
  have hretained : ∀ (l : List ((CStr × UInt8) × UInt8)) (h : Handled cfg κ),
      h.broker.OnlyClient me (l.foldl (retainedOne env me) h).broker := by
    intro l
    induction l with
    | nil => exact fun h _ _ ↦ rfl
    | cons e l ih =>
        intro h
        refine Broker.OnlyClient.trans ?_ (ih _)
        unfold retainedOne
        split_ifs
        · exact fun _ _ ↦ rfl
        · exact fun _ hk ↦ Function.update_of_ne hk _ _
  unfold handleSubscribe
  split
  · exact fun _ hk ↦ Function.update_of_ne hk _ _
  · dsimp only
    refine Broker.OnlyClient.trans ?_ (hretained _ _)
    unfold Handled.reply
    split
    · exact fun _ _ ↦ rfl
    · exact fun _ hk ↦ Function.update_of_ne hk _ _

theorem handleUnsubscribe_inflight {pkt : MqttPacket} {h : Handled cfg κ}
    (hrun : handleUnsubscribe env b me pkt = some h) : b.SameInflight h.broker := by
  unfold handleUnsubscribe at hrun
  split at hrun
  · cases hrun
    exact b.sameInflight_close me
  · obtain ⟨⟨t, ok, n⟩, -, hrun⟩ := Option.bind_eq_some_iff.mp hrun
    cases hrun
    dsimp only
    split_ifs
    · exact Handled.sameInflight_reply env me _ ⟨{ b with table := t }, n.map .notify⟩
    · exact Broker.sameInflight_close { b with table := t } me

/-- A PUBLISH that is not published. -/
theorem handlePublish_inflight {pkt : MqttPacket} {h : Handled cfg κ} (hok : pkt.headerOk = true)
    (htype : pkt.type = PacketType.publish) {now : ℤ}
    (hb : b = b'.updateClient me fun c ↦ { c with lastSeenMs := now })
    (hbegin : publishBegin env b' me pkt = none) (hrun : handlePublish env b me pkt = some h) :
    b.SameInflight h.broker := by
  unfold handlePublish at hrun
  split at hrun
  · cases hrun
    exact fun _ ↦ rfl
  · next pub hparse =>
      split_ifs at hrun with hqos htopic hid
      iterate 3
        · cases hrun
          exact b.sameInflight_close me
      have htests : ¬ (pub.qos = 3 ∨ (pub.topic = [] ∨ hasWildcard pub.topic = true) ∨
          0 < pub.qos ∧ pub.packetId = 0) := by
        rintro (h3 | ht | hz)
        · exact hqos h3
        · exact htopic ht
        · exact hid hz
      have hseen : ∀ now : ℤ, ((b'.updateClient me fun c ↦ { c with lastSeenMs := now }).clients
          me).qos2In = (b'.clients me).qos2In := fun _ ↦ b'.updateClient_qos2In me _
      simp only [publishBegin, hok, htype, hparse, if_neg htests, Bool.not_true, ne_eq,
        not_true_eq_false, or_self, if_false, Bool.false_eq_true] at hbegin
      rw [hseen] at hbegin
      rcases ite_eq_iff.mp hbegin with ⟨h2, hbegin⟩ | ⟨-, hbegin⟩
      · unfold publishAccepted at hrun
        rw [if_pos h2, hb, hseen] at hrun
        cases hslot : (b'.clients me).qos2In.slot pub.packetId with
        | free i =>
            rw [hslot] at hbegin
            cases hbegin
        | dup =>
            rw [hslot, ← hb] at hrun
            cases hrun
            exact Handled.sameInflight_reply env me _ ⟨b, []⟩
        | full =>
            rw [hslot, ← hb] at hrun
            cases hrun
            exact Handled.sameInflight_reply env me _ ⟨b, []⟩
      · cases hbegin

/-- What a packet that publishes nothing makes of the tables of messages in flight. -/
inductive PacketCase (env : Env κ) (b : Broker cfg κ) (me : κ) (pkt : MqttPacket)
    (b' : Broker cfg κ) : Prop where
  | release (htype : pkt.type = PacketType.puback ∨ pkt.type = PacketType.pubcomp)
      (hother : b.OnlyClient me b') (hme : (b'.clients me).inflight =
        InflightTable.release (b.clients me).inflight pkt.packetId)
  | pubrec (htype : pkt.type = PacketType.pubrec) (hother : b.OnlyClient me b')
      (hme : ∃ c : Client, c.inflight = (b.clients me).inflight ∧ (b'.clients me).inflight =
        (c.pubrec pkt.packetId env.now (env.sendOk me)).1.inflight)
  | subscribe (hok : pkt.headerOk = true) (htype : pkt.type = PacketType.subscribe)
      (hother : b.OnlyClient me b')
  | other (hack : pkt.headerOk = true → pkt.type ≠ PacketType.puback ∧ pkt.type ≠ PacketType.pubrec)
      (hsame : b.SameInflight b')

theorem dispatch_packetCase {pkt : MqttPacket} {h : Handled cfg κ}
    (hbegin : publishBegin env b me pkt = none) (hrun : dispatch env b me pkt = some h) :
    PacketCase env b me pkt h.broker := by
  have hseen : b.OnlyClient me (b.updateClient me fun c ↦ { c with lastSeenMs := env.now }) :=
    b.onlyClient_update _
  have hsame : b.SameInflight (b.updateClient me fun c ↦ { c with lastSeenMs := env.now }) :=
    b.sameInflight_update me _ rfl
  unfold dispatch at hrun
  dsimp only at hrun
  generalize hb : b.updateClient me (fun c ↦ { c with lastSeenMs := env.now }) = b₁
    at hrun hseen hsame
  rcases ite_eq_iff.mp hrun with ⟨hbad, hrun⟩ | ⟨hok, hrun⟩
  · cases hrun
    exact .other (fun hok ↦ by simp [hok] at hbad) (hsame.trans (b₁.sameInflight_close me))
  have hok : pkt.headerOk = true := by simpa using hok
  have hother : ∀ {b₂ : Broker cfg κ}, b₁.SameInflight b₂ →
      pkt.type ≠ PacketType.puback ∧ pkt.type ≠ PacketType.pubrec →
      PacketCase env b me pkt b₂ := fun h₂ hne ↦ .other (fun _ ↦ hne) (hsame.trans h₂)
  cases dispatchType_cases hrun with
  | connect htype => exact hother (b₁.sameInflight_close me) (by rw [htype]; decide)
  | publish htype hrun =>
      exact hother (handlePublish_inflight hok htype hb.symm hbegin hrun) (by rw [htype]; decide)
  | subscribe htype =>
      exact .subscribe hok htype (hseen.trans (handleSubscribe_onlyClient env b₁ me pkt))
  | unsubscribe htype hrun =>
      exact hother (handleUnsubscribe_inflight hrun) (by rw [htype]; decide)
  | pingreq htype =>
      exact hother (Handled.sameInflight_reply env me _ ⟨b₁, []⟩) (by rw [htype]; decide)
  | disconnect htype =>
      refine hother (Broker.SameInflight.trans ?_ (Broker.sameInflight_close _ me))
        (by rw [htype]; decide)
      exact b₁.sameInflight_update me _ rfl
  | ack htype =>
      refine .release htype (hseen.trans fun _ hk ↦ Function.update_of_ne hk _ _) ?_
      rw [← hsame me, ← Client.inflightAck_inflight]
      exact congrArg Client.inflight (Function.update_self _ _ _)
  | pubrec htype =>
      refine .pubrec htype (hseen.trans fun _ hk ↦ Function.update_of_ne hk _ _)
        ⟨b₁.clients me, hsame me, ?_⟩
      exact congrArg Client.inflight (Function.update_self _ _ _)
  | pubrel htype =>
      refine hother (Broker.SameInflight.trans ?_ (Handled.sameInflight_reply env me _
        ⟨b₁.updateClient me (·.qos2Release pkt.packetId), []⟩)) (by rw [htype]; decide)
      exact b₁.sameInflight_update me (·.qos2Release pkt.packetId) rfl
  | ignored htype =>
      refine hother (fun _ ↦ rfl) ⟨fun hack ↦ htype ?_, fun hrec ↦ htype ?_⟩
      · simp [hack]
      · simp [hrec]

/-- The steps of `handle_connect` and `client_free` send no message but those of
the session. -/
theorem connStep_inflight {pc pc' : ConnPc cfg} {h : Handled cfg κ}
    (hnext : connStep env b me pc = some (h, pc')) :
    b.SameInflight h.broker ∨ (∃ s, pc = .drain s) ∧ b.OnlyClient me h.broker := by
  cases pc with
  | takeover conn =>
      cases hnext
      refine .inl fun k ↦ ?_
      dsimp only [clientTakeover]
      split_ifs <;> rfl
  | assignId | assignRest | closeFd | clearWill | release =>
      cases hnext
      left
      dsimp only
      exact b.sameInflight_update me _ rfl
  | connack sess present =>
      cases hnext
      exact .inl (Handled.sameInflight_reply env me _ ⟨b, []⟩)
  | reply ack =>
      cases hnext
      exact .inl (Handled.sameInflight_reply env me ack ⟨b, []⟩)
  | restore i n =>
      simp only [connStep] at hnext
      split at hnext
      · cases hnext
        unfold restoreOne
        split_ifs <;> exact .inl fun _ ↦ rfl
      · cases hnext
        exact .inl fun _ ↦ rfl
  | drain s =>
      cases hnext
      exact .inr ⟨⟨s, rfl⟩, fun k hk ↦ Function.update_of_ne hk _ _⟩
  | will =>
      simp only [connStep] at hnext
      split_ifs at hnext
      cases hnext
      exact .inl fun _ ↦ rfl
  | saveInflight i n =>
      simp only [connStep] at hnext
      split at hnext <;> cases hnext <;> exact .inl fun _ ↦ rfl
  | unsubscribe =>
      obtain ⟨r, -, heq⟩ := Option.map_eq_some_iff.mp hnext
      cases heq
      exact .inl fun _ ↦ rfl
  | delete =>
      cases hnext
      dsimp only
      split_ifs <;> exact .inl fun _ ↦ rfl
  | openSession | online | loop | collect | lookup | saveSubs =>
      cases hnext
      exact .inl fun _ ↦ rfl
  | idle | waiting | recv | publish => cases hnext

theorem publishBegin_inflight {pkt : MqttPacket} {pub : MqttPublish} {ack : Option Bytes}
    (h : publishBegin env b me pkt = some (b', pub, ack)) : b.SameInflight b' := by
  have hseen : b.SameInflight (b.updateClient me fun c ↦ { c with lastSeenMs := env.now }) :=
    b.sameInflight_update me _ rfl
  unfold publishBegin at h
  rcases ite_eq_iff.mp h with ⟨-, h⟩ | ⟨-, h⟩
  · cases h
  split at h
  · cases h
  dsimp only at h
  generalize b.updateClient me (fun c ↦ { c with lastSeenMs := env.now }) = b₁ at h hseen
  rcases ite_eq_iff.mp h with ⟨-, h⟩ | ⟨-, h⟩
  · cases h
  rcases ite_eq_iff.mp h with ⟨-, h⟩ | ⟨-, h⟩
  · split at h
    · next i _ =>
        cases h
        exact hseen.trans (b₁.sameInflight_update me (·.qos2Store i pub.packetId) rfl)
    · cases h
    · cases h
  · cases h
    exact hseen

/-- Collecting the targets only takes packet ids. -/
theorem publishLocked_inflight {pub : MqttPublish} {r : Broker cfg κ × Option (List (SendOp κ))}
    (h : publishLocked env b pub = some r) : b.SameInflight r.1 := by
  have hrule : SendRule (fun _ ↦ False) fun c c' : Client ↦ c'.inflight = c.inflight :=
    ⟨fun _ ↦ rfl, fun h h' ↦ h'.trans h, fun c sendOk ↦ Client.clientSend_inflight c sendOk,
      fun _ _ ↦ rfl, fun _ _ _ _ hno ↦ hno.elim⟩
  exact hrule.locked h

end

/-! ## What is sent and not stored yet -/

/-- In what a publish has to do, each message is stored right after it is sent. -/
inductive Paired : List (SendOp κ) → Prop where
  | nil : Paired []
  | send (k : κ) (frame : Bytes) {ops : List (SendOp κ)} (h : Paired ops) :
      Paired (.send k frame :: ops)
  | store (k : κ) (frame : Bytes) (id : UInt16) (qos : UInt8) {ops : List (SendOp κ)}
      (h : Paired ops) : Paired (.send k frame :: .store k id frame qos :: ops)

/-- The same, where the first message may have been sent already. -/
def OpsPaired (ops : List (SendOp κ)) : Prop :=
  Paired ops ∨ ∃ k id frame qos rest, ops = .store k id frame qos :: rest ∧ Paired rest

theorem Paired.tail {op : SendOp κ} {ops : List (SendOp κ)} (h : Paired (op :: ops)) :
    OpsPaired ops := by
  cases h with
  | send _ _ h => exact .inl h
  | store k frame id qos h => exact .inr ⟨k, id, frame, qos, _, rfl, h⟩

theorem OpsPaired.tail {op : SendOp κ} {ops : List (SendOp κ)} (h : OpsPaired (op :: ops)) :
    OpsPaired ops := by
  rcases h with h | ⟨k, id, frame, qos, rest, heq, h⟩
  · exact h.tail
  · cases heq
    exact .inl h

/-- The message that is stored next was the last one sent. -/
theorem OpsPaired.store_eq {k k' : κ} {frame frame' : Bytes} {id : UInt16} {qos : UInt8}
    {ops : List (SendOp κ)} (h : OpsPaired (.send k frame :: .store k' id frame' qos :: ops)) :
    k' = k := by
  rcases h with h | ⟨_, _, _, _, _, heq, -⟩
  · cases h with
    | send _ _ h => cases h
    | store => rfl
  · cases heq

theorem paired_sends (ks : List κ) (frame : Bytes) : Paired (ks.map (.send · frame)) := by
  induction ks with
  | nil => exact .nil
  | cons k ks ih => exact .send k frame ih

theorem paired_targets (pub : MqttPublish) (targets : List (DeliveryTarget κ)) :
    Paired (targets.flatMap (targetOps pub)) := by
  induction targets with
  | nil => exact .nil
  | cons target targets ih =>
      rw [List.flatMap_cons]
      unfold targetOps
      dsimp only
      split
      · exact ih
      · split_ifs
        · exact .store target.client _ _ _ ih
        · exact .send target.client _ ih

/-- The next step of a publish is to store a message with this id for client `k`. -/
def storesNext [DecidableEq κ] (k : κ) (id : UInt16) : List (SendOp κ) → Bool
  | .store k' id' _ _ :: _ => k' = k && id' = id
  | _ => false

section

variable [DecidableEq κ]

theorem Paired.not_storesNext {ops : List (SendOp κ)} (h : Paired ops) (k : κ) (id : UInt16) :
    storesNext k id ops = false := by
  cases h <;> rfl

theorem publishLocked_paired {env : Env κ} {b : Broker cfg κ} {pub : MqttPublish}
    {r : Broker cfg κ × Option (List (SendOp κ))} (h : publishLocked env b pub = some r) :
    ∀ ops, r.2 = some ops → Paired ops := by
  unfold publishLocked at h
  split at h
  · cases h
    simp
  · obtain ⟨⟨clients, ops⟩, hops, rfl⟩ := Option.map_eq_some_iff.mp h
    rintro _ ⟨rfl⟩
    unfold fanOutOps at hops
    split_ifs at hops
    · obtain ⟨ops', hops', heq⟩ := Option.map_eq_some_iff.mp hops
      cases heq
      obtain ⟨slots, -, hops'⟩ := Option.bind_eq_some_iff.mp hops'
      split at hops'
      · cases hops'
        exact .nil
      · cases hops'
        exact paired_sends _ _
    · obtain ⟨slots, -, hops⟩ := Option.bind_eq_some_iff.mp hops
      cases hops
      exact paired_targets pub _

end

/-! ## Runs -/

/-- A message that a subscriber has acknowledged: its QoS is 1 after a PUBACK and
2 after a PUBREC. -/
structure Acked (κ : Type) where
  client : κ
  id : UInt16
  qos : UInt8
  deriving DecidableEq

/-- What a packet of client `k` acknowledges. -/
def ackedBy (k : κ) (pkt : MqttPacket) : Option (Acked κ) :=
  if !pkt.headerOk ∨ pkt.packetId = 0 then none
  else if pkt.type = PacketType.puback then some ⟨k, pkt.packetId, 1⟩
  else if pkt.type = PacketType.pubrec then some ⟨k, pkt.packetId, 2⟩
  else none

namespace Threads

variable [DecidableEq κ] [DecidableEq σ] (s : Threads cfg κ σ)

/-- A message with this id was sent to client `k` and is not stored yet. -/
def Unstored (k : κ) (id : UInt16) : Prop :=
  ∃ who, ((s.jobs who).any fun job ↦ storesNext k id job.ops) = true

instance [Fintype κ] [Fintype σ] (k : κ) (id : UInt16) : Decidable (s.Unstored k id) :=
  inferInstanceAs (Decidable (∃ _, _))

/-- The acknowledgements that still count after client `k` has sent messages of its own. -/
def ackedStill (k : κ) (s' : Threads cfg κ σ) (acked : List (Acked κ)) : List (Acked κ) :=
  acked.filter fun a ↦
    ¬ (a.client = k ∧ InflightTable.Resends (s'.broker.clients k).inflight a.id a.qos)

/-- The acknowledged messages after a step.  A new message takes the id over when
it is sent, and a new connection forgets all. -/
def noteAcked (e : ThreadEvent κ σ) (acked : List (Acked κ)) : List (Acked κ) :=
  match e with
  | .alloc k _ => acked.filter fun a ↦ a.client ≠ k
  | .packet k _ pkt =>
      if (s.broker.clients k).state = .connected then
        match ackedBy k pkt with
        | some a => a :: acked
        | none =>
            -- the retained messages
            if pkt.type = PacketType.subscribe then (s.step e).elim acked (ackedStill k · acked)
            else acked
      else acked
  | .next k _ =>
      match s.conn k with
      | .drain _ => (s.step e).elim acked (ackedStill k · acked)
      | _ => acked
  | .send who _ =>
      match (s.jobs who).map PublishJob.ops with
      | some (.send k _ :: .store _ id _ _ :: _) =>
          acked.filter fun a ↦ ¬ (a.client = k ∧ a.id = id)
      | _ => acked
  | _ => acked

/-- An acknowledgement is handled only when the message with its id is stored, and
no other one with this id is in flight. -/
def AckInTime (s : Threads cfg κ σ) (_ : List (Acked κ)) : ThreadEvent κ σ → Prop
  | .packet k _ pkt => (s.broker.clients k).state = .connected → ∀ a ∈ ackedBy k pkt,
      ¬ s.Unstored k a.id ∧ InflightTable.OneOf (s.broker.clients k).inflight a.id
  | _ => True

instance [Fintype κ] [Fintype σ] (acked : List (Acked κ)) : DecidablePred (s.AckInTime acked)
  | .packet k _ pkt => inferInstanceAs (Decidable (_ → ∀ a ∈ ackedBy k pkt, _ ∧ _))
  | .alloc _ _ | .connect _ _ _ | .tick _ _ | .next _ _ | .leave _
  | .publish _ _ | .foreign _ _ _ | .send _ _ | .offline _ => .isTrue trivial

/-- No acknowledged message is sent again, or stored by a publish under way. -/
structure AcksKept (acked : List (Acked κ)) : Prop where
  quiet : ∀ a ∈ acked, ¬ InflightTable.Resends (s.broker.clients a.client).inflight a.id a.qos
  stored : ∀ a ∈ acked, ¬ s.Unstored a.client a.id
  paired : ∀ who job, s.jobs who = some job → OpsPaired job.ops

end Threads

/-- The broker's threads and the acknowledged messages. -/
def ackSystem (cfg : Config) (κ σ : Type) [DecidableEq κ] [DecidableEq σ] :
    System (Threads cfg κ σ) (ThreadEvent κ σ) (List (Acked κ)) where
  step := Threads.step
  note s := s.noteAcked

section

variable {s s' : Threads cfg κ σ} {acked : List (Acked κ)} {e : ThreadEvent κ σ} {k : κ}

open Threads

theorem ackedBy_eq_some {pkt : MqttPacket} {a : Acked κ} (h : ackedBy k pkt = some a) :
    pkt.headerOk = true ∧ pkt.packetId ≠ 0 ∧ a.client = k ∧ a.id = pkt.packetId ∧
      (pkt.type = PacketType.puback ∧ a.qos = 1 ∨ pkt.type = PacketType.pubrec ∧ a.qos = 2) := by
  unfold ackedBy at h
  split_ifs at h with hbad hack hrec
  · cases h
    simp only [not_or, Bool.not_eq_true, Bool.not_eq_false'] at hbad
    exact ⟨hbad.1, hbad.2, rfl, rfl, .inl ⟨hack, rfl⟩⟩
  · cases h
    simp only [not_or, Bool.not_eq_true, Bool.not_eq_false'] at hbad
    exact ⟨hbad.1, hbad.2, rfl, rfl, .inr ⟨hrec, rfl⟩⟩

variable [DecidableEq κ]

theorem Threads.unstored_iff {id : UInt16} :
    s.Unstored k id ↔ ∃ who job, s.jobs who = some job ∧ storesNext k id job.ops = true :=
  exists_congr fun _ ↦ Option.any_eq_true _ _

namespace Threads.AcksKept

theorem mono {acked' : List (Acked κ)} (h : s.AcksKept acked) (hsub : ∀ a ∈ acked', a ∈ acked) :
    s.AcksKept acked' :=
  ⟨fun a ha ↦ h.quiet a (hsub a ha), fun a ha ↦ h.stored a (hsub a ha), h.paired⟩

/-- A step that sends again no more than before, and leaves the publishes alone. -/
theorem frame (h : s.AcksKept acked) (hresends : ∀ a ∈ acked,
      InflightTable.Resends (s'.broker.clients a.client).inflight a.id a.qos →
        InflightTable.Resends (s.broker.clients a.client).inflight a.id a.qos)
    (hjobs : s'.jobs = s.jobs) : s'.AcksKept acked where
  quiet a ha hr := h.quiet a ha (hresends a ha hr)
  stored a ha hun := h.stored a ha (by rwa [Unstored, hjobs] at hun)
  paired who job hjob := h.paired who job (by rwa [hjobs] at hjob)

theorem same (h : s.AcksKept acked) (hsame : s.broker.SameInflight s'.broker)
    (hjobs : s'.jobs = s.jobs) : s'.AcksKept acked :=
  h.frame (fun a _ hr ↦ by rwa [hsame a.client] at hr) hjobs

/-- Client `k` sends messages of its own. -/
theorem own (h : s.AcksKept acked) (hother : s.broker.OnlyClient k s'.broker)
    (hjobs : s'.jobs = s.jobs) : s'.AcksKept (ackedStill k s' acked) := by
  have hmem : ∀ {a}, a ∈ ackedStill k s' acked → a ∈ acked := fun ha ↦ List.mem_of_mem_filter ha
  refine ⟨fun a ha hr ↦ ?_, fun a ha hun ↦ ?_, fun who job hjob ↦ ?_⟩
  · have hstill := (List.mem_filter.mp ha).2
    simp only [decide_eq_true_eq] at hstill
    by_cases hk : a.client = k
    · exact hstill ⟨hk, hk ▸ hr⟩
    · rw [hother a.client hk] at hr
      exact h.quiet a (hmem ha) hr
  · exact h.stored a (hmem ha) (by rwa [Unstored, hjobs] at hun)
  · exact h.paired who job (by rwa [hjobs] at hjob)

variable [DecidableEq σ]

/-- A publish begins. -/
theorem begin (h : s.AcksKept acked) {who : κ ⊕ σ} {env : Env κ} {pub : MqttPublish}
    (hbegin : s.begin who env pub = some s') : s'.AcksKept acked := by
  obtain ⟨r, hlocked, rfl⟩ := Option.map_eq_some_iff.mp hbegin
  have hsame := publishLocked_inflight hlocked
  have hjob : ∀ {w job}, Function.update s.jobs who
      (r.2.map fun ops ↦ ⟨pub, ops, s.broker.table, s.gen⟩) w = some job →
        s.jobs w = some job ∨ Paired job.ops := by
    intro w job hjob
    by_cases hw : w = who
    · subst hw
      rw [Function.update_self] at hjob
      obtain ⟨ops, hops, rfl⟩ := Option.map_eq_some_iff.mp hjob
      exact .inr (publishLocked_paired hlocked ops hops)
    · rw [Function.update_of_ne hw] at hjob
      exact .inl hjob
  refine ⟨fun a ha hr ↦ h.quiet a ha (by rwa [hsame a.client] at hr), fun a ha hun ↦ ?_,
    fun w job hw ↦ (hjob hw).elim (h.paired w job) .inl⟩
  obtain ⟨w, job, hw, hnext⟩ := unstored_iff.mp hun
  rcases hjob hw with hw | hpaired
  · exact h.stored a ha (unstored_iff.mpr ⟨w, job, hw, hnext⟩)
  · rw [hpaired.not_storesNext] at hnext
    cases hnext

/-- A publish sends a message, or stores the one it has sent. -/
theorem send (h : s.AcksKept acked) {who : κ ⊕ σ} {env : Env κ} {pub : MqttPublish}
    {op : SendOp κ} {ops : List (SendOp κ)} {table : TopicTable cfg κ} {gens : κ → ℕ}
    (hjob : s.jobs who = some ⟨pub, op :: ops, table, gens⟩) :
    AcksKept { s with
      broker := { s.broker with clients := op.run env s.broker.clients }
      jobs := Function.update s.jobs who (some ⟨pub, ops, table, gens⟩) }
      (s.noteAcked (.send who env) acked) := by
  have hpaired := h.paired who _ hjob
  have hmem : ∀ {a}, a ∈ s.noteAcked (.send who env) acked → a ∈ acked := by
    intro a ha
    simp only [noteAcked] at ha
    split at ha
    · exact List.mem_of_mem_filter ha
    · exact ha
  refine ⟨fun a ha hr ↦ h.quiet a (hmem ha) ?_, fun a ha hun ↦ ?_, fun w job hw ↦ ?_⟩
  · cases op with
    | send c frame =>
        dsimp only [SendOp.run] at hr
        by_cases hc : a.client = c
        · rw [hc, Function.update_self, Client.clientSend_inflight] at hr
          rwa [hc]
        · rwa [Function.update_of_ne hc] at hr
    | store c id frame qos =>
        dsimp only [SendOp.run] at hr
        by_cases hc : a.client = c
        · have hid : a.id ≠ id := by
            rintro hid
            refine h.stored a (hmem ha) (unstored_iff.mpr ⟨who, _, hjob, ?_⟩)
            simp [storesNext, hc, hid]
          rw [hc, Function.update_self] at hr
          rw [hc]
          exact Client.resends_inflightStore hid hr
        · rwa [Function.update_of_ne hc] at hr
  · obtain ⟨w, job, hw, hnext⟩ := unstored_iff.mp hun
    dsimp only at hw
    by_cases hwho : w = who
    · subst hwho
      rw [Function.update_self] at hw
      cases hw
      dsimp only at hnext
      match ops, hnext, hpaired, hjob, ha with
      | .store c id frame qos :: rest, hnext, hpaired, hjob, ha =>
          simp only [storesNext, Bool.and_eq_true, decide_eq_true_eq] at hnext
          obtain ⟨rfl, rfl⟩ := hnext
          cases op with
          | send c' frame' =>
              obtain rfl := hpaired.store_eq
              simp [noteAcked, hjob] at ha
          | store c' id' frame' qos' =>
              rcases hpaired with hp | ⟨_, _, _, _, _, heq, hp⟩
              · cases hp
              · cases heq
                cases hp
    · rw [Function.update_of_ne hwho] at hw
      exact h.stored a (hmem ha) (unstored_iff.mpr ⟨w, job, hw, hnext⟩)
  · dsimp only at hw
    by_cases hwho : w = who
    · subst hwho
      rw [Function.update_self] at hw
      cases hw
      exact hpaired.tail
    · rw [Function.update_of_ne hwho] at hw
      exact h.paired w job hw

end Threads.AcksKept

/-- Client `k` acknowledges a message: no other one goes with it. -/
theorem Threads.AcksKept.ack (h : s.AcksKept acked) {a : Acked κ} {env : Env κ} {pkt : MqttPacket}
    (ha : ackedBy k pkt = some a) (hstored : ¬ s.Unstored k a.id)
    (hone : InflightTable.OneOf (s.broker.clients k).inflight a.id)
    (hcase : PacketCase env s.broker k pkt s'.broker) (hjobs : s'.jobs = s.jobs) :
    s'.AcksKept (a :: acked) := by
  obtain ⟨hok, hne, hclient, hid, hkind⟩ := ackedBy_eq_some ha
  have hold : s'.AcksKept acked ∧
      ¬ InflightTable.Resends (s'.broker.clients k).inflight a.id a.qos := by
    cases hcase with
    | release htype hother hme =>
        refine ⟨h.frame (fun a' _ hr ↦ ?_) hjobs, ?_⟩
        · by_cases hk : a'.client = k
          · rw [hk, hme] at hr
            rw [hk]
            exact InflightTable.resends_release hr
          · rwa [hother _ hk] at hr
        · rw [hme, ← hid]
          exact InflightTable.not_resends_release hone
    | pubrec htype hother hme =>
        obtain ⟨c, hc, hme⟩ := hme
        refine ⟨h.frame (fun a' _ hr ↦ ?_) hjobs, ?_⟩
        · by_cases hk : a'.client = k
          · rw [hk, hme] at hr
            rw [hk, ← hc]
            exact Client.resends_pubrec hr
          · rwa [hother _ hk] at hr
        · have hqos : a.qos = 2 := by
            rcases hkind with ⟨hack, -⟩ | ⟨-, hqos⟩
            · rw [htype] at hack
              exact absurd hack (by decide)
            · exact hqos
          rw [hme, hqos, hid]
          refine Client.not_resends_pubrec ?_ hne
          rwa [hc, ← hid]
    | subscribe _ htype =>
        rcases hkind with ⟨hack, -⟩ | ⟨hrec, -⟩
        · rw [htype] at hack
          exact absurd hack (by decide)
        · rw [htype] at hrec
          exact absurd hrec (by decide)
    | other hack =>
        obtain ⟨hnack, hnrec⟩ := hack hok
        rcases hkind with ⟨hack, -⟩ | ⟨hrec, -⟩
        · exact absurd hack hnack
        · exact absurd hrec hnrec
  obtain ⟨hold, hnew⟩ := hold
  refine ⟨fun a' ha' ↦ ?_, fun a' ha' ↦ ?_, hold.paired⟩
  · rcases List.mem_cons.mp ha' with rfl | ha'
    · rwa [hclient]
    · exact hold.quiet a' ha'
  · rcases List.mem_cons.mp ha' with rfl | ha'
    · rw [hclient]
      rwa [Unstored, hjobs]
    · exact hold.stored a' ha'

variable [DecidableEq σ]

/-- A packet that publishes nothing. -/
theorem Threads.AcksKept.packet (h : s.AcksKept acked) {env : Env κ} {pkt : MqttPacket}
    (hallowed : AckInTime s acked (.packet k env pkt))
    (hstate : pkt.headerOk = true → (s.broker.clients k).state = .connected)
    (hstep : s.step (.packet k env pkt) = some s')
    (hcase : PacketCase env s.broker k pkt s'.broker) (hjobs : s'.jobs = s.jobs) :
    s'.AcksKept (s.noteAcked (.packet k env pkt) acked) := by
  cases ha : ackedBy k pkt with
  | some a =>
      have hconn := hstate (ackedBy_eq_some ha).1
      obtain ⟨hstored, hone⟩ := hallowed hconn a ha
      simp only [noteAcked, hconn, if_true, ha]
      exact h.ack ha hstored hone hcase hjobs
  | none =>
      have hsub : ∀ a ∈ s.noteAcked (.packet k env pkt) acked, a ∈ acked := by
        intro a hmem
        simp only [noteAcked, ha, hstep, Option.elim_some] at hmem
        split_ifs at hmem
        · exact List.mem_of_mem_filter hmem
        · exact hmem
        · exact hmem
      cases hcase with
      | release htype hother hme =>
          refine (h.frame (fun a _ hr ↦ ?_) hjobs).mono hsub
          by_cases hk : a.client = k
          · rw [hk, hme] at hr
            rw [hk]
            exact InflightTable.resends_release hr
          · rwa [hother _ hk] at hr
      | pubrec htype hother hme =>
          obtain ⟨c, hc, hme⟩ := hme
          refine (h.frame (fun a _ hr ↦ ?_) hjobs).mono hsub
          by_cases hk : a.client = k
          · rw [hk, hme] at hr
            rw [hk, ← hc]
            exact Client.resends_pubrec hr
          · rwa [hother _ hk] at hr
      | subscribe hok htype hother =>
          simp only [noteAcked, hstate hok, if_true, ha, htype, hstep, Option.elim_some]
          exact h.own hother hjobs
      | other _ hsame => exact (h.same hsame hjobs).mono hsub

theorem acksKept_step [Inhabited κ] (h : s.AcksKept acked) (hallowed : AckInTime s acked e)
    (hstep : s.step e = some s') : s'.AcksKept (s.noteAcked e acked) := by
  cases step_cases hstep with
  | alloc k fd hfree =>
      have hmem : ∀ {a}, a ∈ s.noteAcked (.alloc k fd) acked → a ∈ acked ∧ a.client ≠ k := by
        intro a ha
        simpa [noteAcked] using ha
      refine ⟨fun a ha hr ↦ ?_, fun a ha ↦ h.stored a (hmem ha).1, h.paired⟩
      refine h.quiet a (hmem ha).1 ?_
      have hsame : (clientAlloc s.broker k fd).clients a.client = s.broker.clients a.client :=
        Function.update_of_ne (hmem ha).2 _ _
      rwa [goTo_broker, hsame] at hr
  | notConnect k | connect k | leave k => exact h.same (fun _ ↦ rfl) rfl
  | reject k env pkt code hpc hcheck =>
      refine h.same ?_ rfl
      rw [goTo_broker, handleConnect, hcheck]
      exact (Handled.sameInflight_reply env k _ ⟨s.broker, []⟩).trans
        (Broker.sameInflight_close _ k)
  | late k env pkt hpc hok hstate =>
      simp only [noteAcked, if_neg hstate]
      refine h.same ?_ rfl
      rw [goTo_broker]
      exact s.broker.sameInflight_update k _ rfl
  | publishPacket k env pkt b pub ack hpc hbegin hstate =>
      obtain ⟨hok, htype⟩ := publishBegin_header hbegin
      have hnone : ackedBy k pkt = none := by
        simp [ackedBy, htype, PacketType.publish, PacketType.puback, PacketType.pubrec]
      have hnote : s.noteAcked (.packet k env pkt) acked = acked := by
        simp [noteAcked, hstate, hnone, htype, PacketType.publish, PacketType.subscribe]
      rw [hnote]
      exact h.same (publishBegin_inflight hbegin) rfl
  | packet k env pkt h' hpc hbegin hrun hstate =>
      exact h.packet hallowed hstate hstep (dispatch_packetCase hbegin hrun) rfl
  | tick k env hpc =>
      refine h.frame (fun a _ hr ↦ ?_) rfl
      rw [goTo_broker] at hr
      by_cases hk : a.client = k
      · rw [hk] at hr ⊢
        have hme : ((s.broker.updateClient k fun c ↦
            (c.inflightRetry env.now (env.sendOk k)).1).clients k).inflight =
              fun i ↦ (Client.retryEntry env.now ((s.broker.clients k).inflight i)).1 :=
          (congrArg Client.inflight (Function.update_self _ _ _)).trans
            (Client.inflightRetry_inflight _ _ _)
        rw [hme] at hr
        exact InflightTable.resends_retry (fun i ↦ (retryEntry_kept _ _).1)
          (fun i ↦ (retryEntry_kept _ _).2) hr
      · rwa [s.broker.onlyClient_update _ _ hk] at hr
  | next k env h' pc hjob hnext =>
      rcases connStep_inflight hnext with hsame | ⟨⟨x, hdrain⟩, hother⟩
      · have hkept : (s.goTo k h'.broker pc).AcksKept acked := h.same hsame rfl
        refine hkept.mono fun a ha ↦ ?_
        simp only [noteAcked, hstep, Option.elim_some] at ha
        split at ha
        · exact List.mem_of_mem_filter ha
        · exact ha
      · simp only [noteAcked, hdrain, hstep, Option.elim_some]
        exact h.own hother rfl
  | publish k env pub ack _ hpc hbegin =>
      have h₁ : (s.goTo k s.broker (.reply ack)).AcksKept acked := h.same (fun _ ↦ rfl) rfl
      exact h₁.begin hbegin
  | will k env _ hpc hwill hbegin =>
      have h₁ : (s.goTo k s.broker .clearWill).AcksKept acked := h.same (fun _ ↦ rfl) rfl
      exact h₁.begin hbegin
  | foreign t env pub _ hjob hbegin => exact h.begin hbegin
  | send who env pub op ops table gens hjob => exact h.send hjob
  | offline who pub table gens hjob =>
      refine ⟨h.quiet, fun a ha hun ↦ ?_, fun w job hw ↦ ?_⟩
      · obtain ⟨w, job, hw, hnext⟩ := unstored_iff.mp hun
        dsimp only at hw
        by_cases hwho : w = who
        · subst hwho
          simp at hw
        · rw [Function.update_of_ne hwho] at hw
          exact h.stored a ha (unstored_iff.mpr ⟨w, job, hw, hnext⟩)
      · dsimp only at hw
        by_cases hwho : w = who
        · subst hwho
          simp at hw
        · rw [Function.update_of_ne hwho] at hw
          exact h.paired w job hw

/-- In every interleaving in which an acknowledgement is handled only after the
message was stored, and while no other one in flight has its id, no message is
sent again as a PUBLISH that was acknowledged. -/
theorem acked_not_resent [Inhabited κ] (h : Reach (ackSystem cfg κ σ) AckInTime
    (Threads.init cfg κ σ) [] s acked) :
    ∀ a ∈ acked, ¬ InflightTable.Resends (s.broker.clients a.client).inflight a.id a.qos := by
  have hinv : s.AcksKept acked := by
    refine h.invariant (I := fun s acked ↦ s.AcksKept acked) ⟨?_, ?_, ?_⟩
      fun _ hI hallowed hs ↦ acksKept_step hI hallowed hs
    all_goals simp [Threads.init]
  exact hinv.quiet

end

namespace Sample

def envOne : Env (Fin 1) := ⟨0, true, fun _ ↦ true⟩

/-- The client's acknowledgement of the first message it gets. -/
def pubackPkt : MqttPacket := ⟨PacketType.puback, 2, [0, 1]⟩

/-- The publisher's next step. -/
def sendNext : ThreadEvent (Fin 1) Unit := .send (.inr ()) envOne

/-- The only client subscribes to `t`, and a message to it is sent. -/
def firstSent : List (ThreadEvent (Fin 1) Unit) :=
  [.alloc 0 5, .connect 0 envOne connectPkt] ++ List.replicate 6 (.next 0 envOne) ++
    [.packet 0 envOne subscribePkt, .next 0 envOne, .foreign () envOne toT, sendNext]

/-- The message is acknowledged after it was stored. -/
def storedFirst : List (ThreadEvent (Fin 1) Unit) :=
  firstSent ++ [sendNext, .packet 0 envOne pubackPkt]

/-- The message is acknowledged before it is stored. -/
def ackedFirst : List (ThreadEvent (Fin 1) Unit) :=
  firstSent ++ [.packet 0 envOne pubackPkt, sendNext]

end Sample

/-- The statement for a message that is acknowledged after it was stored. -/
theorem acked_not_resent_storedFirst : ∃ (s : Threads Config.posix (Fin 1) Unit)
    (acked : List (Acked (Fin 1))), ⟨0, 1, 1⟩ ∈ acked ∧
      Reach (ackSystem _ _ _) Threads.AckInTime (Threads.init _ _ _) [] s acked ∧
      ∀ a ∈ acked, ¬ InflightTable.Resends (s.broker.clients a.client).inflight a.id a.qos := by
  have hrun : ((run (ackSystem Config.posix (Fin 1) Unit) (Threads.init _ _ _, [])
      Sample.storedFirst).map fun r ↦ decide (⟨0, 1, 1⟩ ∈ r.2)) = some true := by
    decide +kernel
  have hchecked : checked (ackSystem Config.posix (Fin 1) Unit) Threads.AckInTime
      (Threads.init _ _ _) [] Sample.storedFirst = true := by
    decide +kernel
  obtain ⟨⟨s, acked⟩, hend, hmem⟩ := Option.map_eq_some_iff.mp hrun
  have hreach := Reach.start.run_of_checked hchecked hend
  exact ⟨s, acked, of_decide_eq_true hmem, hreach, acked_not_resent hreach⟩

/-- A message that is acknowledged before it is stored is sent again. -/
theorem early_ack_lost : ∃ (s : Threads Config.posix (Fin 1) Unit) (acked : List (Acked (Fin 1))),
    Reach (ackSystem _ _ _) (fun _ _ _ ↦ True) (Threads.init _ _ _) [] s acked ∧
      ⟨0, 1, 1⟩ ∈ acked ∧ InflightTable.Resends (s.broker.clients 0).inflight 1 1 := by
  have hrun : ((run (ackSystem Config.posix (Fin 1) Unit) (Threads.init _ _ _, [])
      Sample.ackedFirst).map fun r ↦ decide (⟨0, 1, 1⟩ ∈ r.2 ∧
        InflightTable.Resends (r.1.broker.clients 0).inflight 1 1)) = some true := by
    decide +kernel
  obtain ⟨⟨s, acked⟩, hend, hdec⟩ := Option.map_eq_some_iff.mp hrun
  exact ⟨s, acked, Reach.start.run (fun _ _ _ _ ↦ trivial) hend, of_decide_eq_true hdec⟩

end MqttBroker
