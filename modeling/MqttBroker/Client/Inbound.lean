import MqttBroker.Client.Dispatch
import MqttBroker.Topic.FanOut

/-!
# What handling a packet does

For every packet the calls of `topic_publish`, the replies and the inbound
QoS 2 table that `dispatch` leaves behind.
-/

namespace MqttBroker

variable {cfg : Config} {κ : Type}

/-! ## The packets that matter -/

/-- The message of a packet that `handle_publish` accepts. -/
def acceptedPublish (pkt : MqttPacket) : Option MqttPublish :=
  if pkt.headerOk ∧ pkt.type = PacketType.publish then
    (packetParsePublish pkt).filter fun pub ↦
      pub.qos ≠ 3 && pub.topic ≠ [] && !hasWildcard pub.topic && !(0 < pub.qos && pub.packetId = 0)
  else none

/-- The id that a PUBREL releases. -/
def releasedId (pkt : MqttPacket) : Option UInt16 :=
  if pkt.headerOk ∧ pkt.type = PacketType.pubrel then some pkt.packetId else none

namespace Output

def call? : Output cfg κ → Option (PublishCall cfg κ)
  | .publish call => some call
  | _ => none

def frame? : Output cfg κ → Option Bytes
  | .reply frame => some frame
  | _ => none

end Output

namespace Handled

def calls (h : Handled cfg κ) : List (PublishCall cfg κ) := h.log.filterMap Output.call?

def replies (h : Handled cfg κ) : List Bytes := h.log.filterMap Output.frame?

@[simp] theorem calls_reply [DecidableEq κ] (env : Env κ) (me : κ) (frame : Option Bytes)
    (h : Handled cfg κ) : (h.reply env me frame).calls = h.calls := by
  cases frame <;> simp [reply, calls, Output.call?]

theorem replies_reply [DecidableEq κ] (env : Env κ) (me : κ) (frame : Option Bytes)
    (h : Handled cfg κ) : (h.reply env me frame).replies = h.replies ++ frame.toList := by
  cases frame <;> simp [reply, replies, Output.frame?]

@[simp] theorem table_reply [DecidableEq κ] (env : Env κ) (me : κ) (frame : Option Bytes)
    (h : Handled cfg κ) : (h.reply env me frame).broker.table = h.broker.table := by
  cases frame <;> rfl

end Handled

/-- The handler answered with this frame. -/
def Handled.RepliedWith (h : Handled cfg κ) (frame : Option Bytes) : Prop :=
  ∃ f, frame = some f ∧ f ∈ h.replies

theorem Handled.repliedWith_of_eq {h : Handled cfg κ} {frame : Option Bytes}
    (hrep : h.replies = frame.toList) (hframe : frame ≠ none) : h.RepliedWith frame := by
  obtain ⟨f, hf⟩ := Option.ne_none_iff_exists'.mp hframe
  exact ⟨f, hf, by simp [hrep, hf]⟩

/-- `topic_publish` returned 0 and sent the message to all its subscribers. -/
def PublishCall.FannedOut (call : PublishCall cfg κ) : Prop :=
  call.rc = 0 ∧ DeliversExactly call.table call.pub call.sent

/-- The retained store the message may need is there or can be allocated. -/
def StoreReady (b : Broker cfg κ) (env : Env κ) (pub : MqttPublish) : Prop :=
  pub.retain = 0 ∨ b.retains ≠ none ∨ env.callocOk = true

/-! ## The inbound QoS 2 table -/

namespace Qos2Table

variable {q : Qos2Table} {id : UInt16}

/-- No two entries in use have one id. -/
def Distinct (q : Qos2Table) : Prop :=
  ∀ i j, (q i).inUse = true → (q j).inUse = true → (q i).packetId = (q j).packetId → i = j

theorem slot_cases (q : Qos2Table) (id : UInt16) :
    q.slot id = .dup ∧ q.Holds id ∨
      (∃ i, q.slot id = .free i ∧ (q i).inUse = false ∧ ¬ q.Holds id) ∨
      q.slot id = .full ∧ ¬ q.Holds id := by
  unfold slot
  split_ifs with h
  · exact Or.inl ⟨rfl, h⟩
  · split
    · rename_i i hi
      exact Or.inr (Or.inl ⟨i, rfl, by simpa using List.find?_some hi, h⟩)
    · exact Or.inr (Or.inr ⟨rfl, h⟩)

theorem holds_store {i : Fin CLIENT_QOS2_IN_MAX} (hi : (q i).inUse = false) (j : UInt16) :
    (q.store id i).Holds j ↔ j = id ∨ q.Holds j := by
  unfold store Holds
  constructor
  · rintro ⟨k, hk⟩
    by_cases hki : k = i
    · subst hki
      simp only [Function.update_self] at hk
      exact Or.inl hk.2.symm
    · rw [Function.update_of_ne hki] at hk
      exact Or.inr ⟨k, hk⟩
  · rintro (rfl | ⟨k, hk⟩)
    · exact ⟨i, by simp⟩
    · have hki : k ≠ i := by
        rintro rfl
        simp [hi] at hk
      exact ⟨k, by simpa [hki] using hk⟩

theorem Distinct.store (h : q.Distinct) (hid : ¬ q.Holds id) (i : Fin CLIENT_QOS2_IN_MAX) :
    (q.store id i).Distinct := by
  intro j k hj hk hjk
  unfold Qos2Table.store at hj hk hjk
  by_cases hji : j = i <;> by_cases hki : k = i
  · exact hji.trans hki.symm
  · subst hji
    simp only [Function.update_self, Function.update_of_ne hki] at hk hjk
    exact absurd ⟨k, hk, hjk.symm⟩ hid
  · subst hki
    simp only [Function.update_self, Function.update_of_ne hji] at hj hjk
    exact absurd ⟨j, hj, hjk⟩ hid
  · rw [Function.update_of_ne hji] at hj hjk
    rw [Function.update_of_ne hki] at hk hjk
    exact h j k hj hk hjk

/-- In a table without repetitions a release takes out exactly its id. -/
theorem Distinct.release (h : q.Distinct) (id : UInt16) :
    (q.release id).Distinct ∧ ∀ j, (q.release id).Holds j ↔ j ≠ id ∧ q.Holds j := by
  unfold Qos2Table.release
  split
  · rename_i i hi
    have hi' : (q i).inUse = true ∧ (q i).packetId = id := by
      simpa using List.find?_some hi
    have hother : ∀ k, (Function.update q i { q i with inUse := false } k).inUse = true →
        k ≠ i ∧ Function.update q i { q i with inUse := false } k = q k := by
      intro k hk
      by_cases hki : k = i
      · subst hki
        simp at hk
      · exact ⟨hki, Function.update_of_ne hki _ _⟩
    refine ⟨fun j k hj hk hjk ↦ ?_, fun j ↦ ⟨?_, ?_⟩⟩
    · obtain ⟨-, hjq⟩ := hother j hj
      obtain ⟨-, hkq⟩ := hother k hk
      rw [hjq] at hj hjk
      rw [hkq] at hk hjk
      exact h j k hj hk hjk
    · rintro ⟨k, hk, rfl⟩
      obtain ⟨hki, hkq⟩ := hother k hk
      rw [hkq] at hk ⊢
      exact ⟨fun heq ↦ hki (h k i hk hi'.1 (heq.trans hi'.2.symm)), k, hk, rfl⟩
    · rintro ⟨hj, k, hk, rfl⟩
      have hki : k ≠ i := by
        rintro rfl
        exact hj hi'.2
      exact ⟨k, by simp [hki, hk]⟩
  · rename_i hnone
    have hno : ¬ q.Holds id := by
      rintro ⟨i, hi⟩
      simpa [hi] using List.find?_eq_none.mp hnone i (List.mem_finRange i)
    refine ⟨h, fun j ↦ ⟨fun hj ↦ ⟨?_, hj⟩, fun hj ↦ hj.2⟩⟩
    rintro rfl
    exact hno hj

end Qos2Table

/-! ## Packets that publish nothing -/

variable [DecidableEq κ]

/-- A handler that makes no call of `topic_publish`, keeps the table linked and
leaves the inbound QoS 2 table `q` behind. -/
structure Handled.Quiet (me : κ) (q : Qos2Table) (h : Handled cfg κ) :
    Prop where
  calls : h.calls = []
  linked : h.broker.table.IsLinked
  qos2In : (h.broker.clients me).qos2In = q

section

variable {me : κ} {q : Qos2Table}

variable (me) in
theorem Broker.updateClient_qos2In (b : Broker cfg κ) (f : Client → Client) :
    ((b.updateClient me f).clients me).qos2In = (f (b.clients me)).qos2In := by
  simp [Broker.updateClient]

theorem Broker.close_qos2In (b : Broker cfg κ) :
    ((b.close me).clients me).qos2In = (b.clients me).qos2In := b.updateClient_qos2In me _

@[simp] theorem Handled.reply_qos2In (env : Env κ) (frame : Option Bytes) (h : Handled cfg κ) :
    ((h.reply env me frame).broker.clients me).qos2In = (h.broker.clients me).qos2In := by
  cases frame with
  | none => rfl
  | some frame =>
      rw [Handled.reply, Broker.updateClient_qos2In, (Client.clientSend_sentTo _ _).qos2In]

theorem Handled.Quiet.reply {h : Handled cfg κ} (hq : h.Quiet me q) (env : Env κ)
    (frame : Option Bytes) : (h.reply env me frame).Quiet me q :=
  ⟨by simpa using hq.calls, by simpa using hq.linked, by simpa using hq.qos2In⟩

theorem Handled.Quiet.retainedOne {h : Handled cfg κ} (hq : h.Quiet me q) (env : Env κ)
    (e : (CStr × UInt8) × UInt8) : (retainedOne env me h e).Quiet me q := by
  unfold MqttBroker.retainedOne
  split_ifs
  · exact hq
  · have hcalls : h.log.filterMap Output.call? = [] := hq.calls
    refine ⟨by simp [Handled.calls, hcalls, Output.call?], hq.linked, ?_⟩
    rw [Broker.updateClient_qos2In, (topicDeliverRetained_sentTo _ _ _ _ _ _).qos2In]
    exact hq.qos2In

theorem Handled.Quiet.foldl_retainedOne {h : Handled cfg κ} (hq : h.Quiet me q) (env : Env κ)
    (l : List ((CStr × UInt8) × UInt8)) :
    (l.foldl (MqttBroker.retainedOne env me) h).Quiet me q := by
  induction l generalizing h with
  | nil => exact hq
  | cons e l ih => exact ih (hq.retainedOne env e)

variable (me) in
theorem foldl_subscribeOne_isLinked (l : List (CStr × UInt8))
    {r : TopicTable cfg κ × Bytes × List Notify} (h : r.1.IsLinked) :
    (l.foldl (subscribeOne me) r).1.IsLinked := by
  induction l generalizing r with
  | nil => exact h
  | cons e l ih =>
      refine ih ?_
      unfold subscribeOne
      split_ifs
      · exact h
      · exact h.topicSubscribe me e.1 e.2

variable (me) in
/-- The loop of `handle_unsubscribe` ends, in a linked table. -/
theorem unsubscribeEach_isLinked (l : List CStr) {t : TopicTable cfg κ} (h : t.IsLinked) :
    ∃ r, unsubscribeEach me l t = some r ∧ r.1.IsLinked := by
  induction l generalizing t with
  | nil => exact ⟨_, rfl, h⟩
  | cons f l ih =>
      unfold unsubscribeEach
      split_ifs with hf
      · exact ⟨_, rfl, h⟩
      · obtain ⟨s, hs, hlinked⟩ := h.topicUnsubscribe me f
        obtain ⟨r, hr, hlr⟩ := ih hlinked
        exact ⟨(r.1, r.2.1, s.2 ++ r.2.2), by simp [hs, hr], hlr⟩

variable {b : Broker cfg κ} (hl : b.table.IsLinked)

include hl

theorem quiet_close : Handled.Quiet me (b.clients me).qos2In ⟨b.close me, []⟩ :=
  ⟨rfl, hl, b.close_qos2In⟩

theorem quiet_update {f : Client → Client} (frames : List Bytes)
    (hf : (f (b.clients me)).qos2In = q) :
    Handled.Quiet me q ⟨b.updateClient me f, frames.map .reply⟩ := by
  refine ⟨?_, hl, (b.updateClient_qos2In me f).trans hf⟩
  simp [Handled.calls, Output.call?]

theorem handleSubscribe_quiet (env : Env κ) (pkt : MqttPacket) :
    (handleSubscribe env b me pkt).Quiet me (b.clients me).qos2In := by
  unfold handleSubscribe
  split
  · exact quiet_close hl
  · rename_i packetId topics _
    have hlinked := foldl_subscribeOne_isLinked me topics (r := (b.table, [], [])) hl
    generalize topics.foldl (subscribeOne me) (b.table, [], []) = r at hlinked ⊢
    obtain ⟨t, codes, n⟩ := r
    have hq : Handled.Quiet me (b.clients me).qos2In
        ⟨{ b with table := t }, n.map .notify⟩ :=
      ⟨by simp [Handled.calls, Output.call?], hlinked, rfl⟩
    exact (hq.reply env _).foldl_retainedOne env _

theorem handleUnsubscribe_quiet (env : Env κ) (pkt : MqttPacket) :
    ∃ h, handleUnsubscribe env b me pkt = some h ∧ h.Quiet me (b.clients me).qos2In := by
  unfold handleUnsubscribe
  split
  · exact ⟨_, rfl, quiet_close hl⟩
  · rename_i packetId topics _
    obtain ⟨⟨t, ok, n⟩, ht, hlinked⟩ := unsubscribeEach_isLinked me topics hl
    refine ⟨_, by simp only [ht, Option.bind_eq_bind, Option.bind_some]; rfl, ?_⟩
    have hcalls : (⟨{ b with table := t }, n.map .notify⟩ : Handled cfg κ).calls = [] := by
      simp [Handled.calls, Output.call?]
    split_ifs
    · exact Handled.Quiet.reply ⟨hcalls, hlinked, rfl⟩ env _
    · exact ⟨hcalls, hlinked, Broker.close_qos2In _⟩

theorem handlePublish_quiet {pkt : MqttPacket} (hok : pkt.headerOk = true)
    (htype : pkt.type = PacketType.publish) (hacc : acceptedPublish pkt = none) (env : Env κ) :
    ∃ h, handlePublish env b me pkt = some h ∧ h.Quiet me (b.clients me).qos2In := by
  simp only [acceptedPublish, hok, htype, and_self, if_true] at hacc
  unfold handlePublish
  split
  · exact ⟨_, rfl, rfl, hl, rfl⟩
  · rename_i pub hparse
    split_ifs with h₁ h₂ h₃
    · exact ⟨_, rfl, quiet_close hl⟩
    · exact ⟨_, rfl, quiet_close hl⟩
    · exact ⟨_, rfl, quiet_close hl⟩
    · simp [hparse] at hacc
      grind

variable (me) in
theorem dispatchType_quiet {pkt : MqttPacket} (hok : pkt.headerOk = true)
    (hacc : acceptedPublish pkt = none) (env : Env κ) :
    ∃ h, dispatchType env b me pkt = some h ∧ h.Quiet me (match releasedId pkt with
      | some id => (b.clients me).qos2In.release id
      | none => (b.clients me).qos2In) := by
  by_cases hrel : pkt.type = PacketType.pubrel
  · have hid : releasedId pkt = some pkt.packetId := by simp [releasedId, hok, hrel]
    refine ⟨handlePubrel env b me pkt.packetId, ?_, ?_⟩
    · simp [dispatchType, hrel, PacketType.pubrel, PacketType.connect, PacketType.publish,
        PacketType.subscribe, PacketType.unsubscribe, PacketType.pingreq, PacketType.disconnect,
        PacketType.puback, PacketType.pubrec]
    · rw [hid]
      exact (quiet_update hl (f := (·.qos2Release pkt.packetId)) [] rfl).reply env _
  · have hid : releasedId pkt = none := by simp [releasedId, hrel]
    rw [hid]
    unfold dispatchType
    split_ifs with h₁ h₂ h₃ h₄ h₅ h₆ h₇ h₈ h₉
    · exact ⟨_, rfl, quiet_close hl⟩
    · exact handlePublish_quiet hl hok h₂ hacc env
    · exact ⟨_, rfl, handleSubscribe_quiet hl env pkt⟩
    · exact handleUnsubscribe_quiet hl env pkt
    · exact ⟨_, rfl, Handled.Quiet.reply (h := ⟨b, []⟩) ⟨rfl, hl, rfl⟩ env _⟩
    · exact ⟨_, rfl, rfl, hl, (Broker.close_qos2In _).trans (b.updateClient_qos2In me _)⟩
    · exact ⟨_, rfl, quiet_update hl [] (Client.inflightAck_sentTo _ _).qos2In⟩
    · exact ⟨_, rfl, quiet_update hl _ (Client.pubrec_sentTo _ _ _ _).qos2In⟩
    · exact ⟨_, rfl, quiet_update hl [] (Client.inflightAck_sentTo _ _).qos2In⟩
    · exact ⟨_, rfl, rfl, hl, rfl⟩

variable (me) in
/-- Every packet but an accepted PUBLISH is handled, publishes nothing, and
changes the inbound QoS 2 table only if it is a PUBREL. -/
theorem dispatch_quiet {pkt : MqttPacket} (hacc : acceptedPublish pkt = none) (env : Env κ) :
    ∃ h, dispatch env b me pkt = some h ∧ h.Quiet me (match releasedId pkt with
      | some id => (b.clients me).qos2In.release id
      | none => (b.clients me).qos2In) := by
  unfold dispatch
  cases hok : pkt.headerOk with
  | false =>
      refine ⟨_, rfl, rfl, hl, ?_⟩
      simp [releasedId, hok, Broker.close_qos2In, Broker.updateClient_qos2In]
  | true =>
      obtain ⟨h, hrun, hq⟩ := dispatchType_quiet me
        (b := b.updateClient me fun c ↦ { c with lastSeenMs := env.now }) hl hok hacc env
      refine ⟨h, hrun, hq.calls, hq.linked, hq.qos2In.trans ?_⟩
      cases releasedId pkt with
      | none => exact b.updateClient_qos2In me _
      | some id => exact congrArg (·.release id) (b.updateClient_qos2In me _)

end

/-! ## Packets that publish -/

theorem acceptedPublish_eq_some {pkt : MqttPacket} {pub : MqttPublish}
    (h : acceptedPublish pkt = some pub) :
    pkt.headerOk = true ∧ pkt.type = PacketType.publish ∧ packetParsePublish pkt = some pub ∧
      pub.qos ≠ 3 ∧ pub.topic ≠ [] ∧ hasWildcard pub.topic = false ∧
      ¬(0 < pub.qos ∧ pub.packetId = 0) := by
  unfold acceptedPublish at h
  split_ifs at h with hpkt
  rw [Option.filter_eq_some_iff] at h
  obtain ⟨hparse, htests⟩ := h
  simp only [Bool.and_eq_true, Bool.not_eq_true', decide_eq_true_eq, decide_eq_false_iff_not,
    Bool.and_eq_false_iff] at htests
  obtain ⟨⟨⟨h3, hne⟩, hplain⟩, hid⟩ := htests
  exact ⟨hpkt.1, hpkt.2, hparse, h3, hne, hplain, not_and_or.mpr hid⟩

/-- A handler that makes one call of `topic_publish`, with message `pub`, and
leaves the inbound QoS 2 table `q` behind; the message is fanned out if `ready`. -/
structure Handled.Publishes (me : κ) (q : Qos2Table) (pub : MqttPublish) (ready : Prop)
    (h : Handled cfg κ) : Prop where
  call : ∃ call, h.calls = [call] ∧ call.pub = pub ∧ (call.FannedOut ↔ ready)
  linked : h.broker.table.IsLinked
  qos2In : (h.broker.clients me).qos2In = q

section

variable {me : κ} {q : Qos2Table} {pub : MqttPublish} {ready : Prop}

theorem Handled.Publishes.reply {h : Handled cfg κ} (hp : h.Publishes me q pub ready)
    (env : Env κ) (frame : Option Bytes) : (h.reply env me frame).Publishes me q pub ready :=
  ⟨by simpa using hp.call, by simpa using hp.linked, by simpa using hp.qos2In⟩

variable {b : Broker cfg κ} (hl : b.table.IsLinked) (env : Env κ) (hfits : pub.Fits)
  (hne : pub.topic ≠ []) (hplain : hasWildcard pub.topic = false) (hq : pub.qos ≤ 2)

include hl hfits hne hplain hq

variable (me) in
theorem callPublish_publishes :
    ∃ h, callPublish env b pub = some h ∧ h.replies = [] ∧
      h.Publishes me (b.clients me).qos2In pub (StoreReady b env pub) := by
  obtain ⟨r, hr, hsent⟩ := topicPublish_of_isLinked hl env hfits hne hplain hq
  obtain ⟨htable, hclients⟩ := topicPublishInternal_frame hr
  have hrc := topicPublishInternal_rc hr
  refine ⟨⟨r.broker, [.publish ⟨pub, b.table, r.rc, r.sent⟩]⟩, by simp [callPublish, hr],
    by simp [Handled.replies, Output.frame?], ?_⟩
  refine ⟨⟨⟨pub, b.table, r.rc, r.sent⟩, by simp [Handled.calls, Output.call?], rfl, ?_⟩,
    htable ▸ hl, (hclients me).qos2In⟩
  exact ⟨fun hf ↦ hrc.mp hf.1, fun hready ↦ ⟨hrc.mpr hready, hsent (hrc.mpr hready)⟩⟩

variable (me) in
/-- QoS 0 and 1: one call, and PUBACK for QoS 1. -/
theorem publishAccepted_qos01 (h2 : pub.qos ≠ 2) :
    ∃ h, publishAccepted env b me pub = some h ∧
      h.replies = (if pub.qos = 1 then packetBuildPuback pub.packetId 4 else none).toList ∧
      h.Publishes me (b.clients me).qos2In pub (StoreReady b env pub) := by
  obtain ⟨h, hrun, hrep, hp⟩ := callPublish_publishes me hl env hfits hne hplain hq
  refine ⟨_, by simp only [publishAccepted, if_neg h2, hrun]; rfl, ?_⟩
  split_ifs
  · exact ⟨by rw [Handled.replies_reply, hrep]; rfl, hp.reply env _⟩
  · exact ⟨hrep, hp⟩

omit hfits hne hplain hq in
/-- QoS 2 with a known id or a full table: no call, but PUBREC all the same. -/
theorem publishAccepted_qos2_quiet (h2 : pub.qos = 2)
    (hslot : ∀ i, (b.clients me).qos2In.slot pub.packetId ≠ .free i) :
    ∃ h, publishAccepted env b me pub = some h ∧
      h.replies = (packetBuildPubrec pub.packetId 4).toList ∧
      h.Quiet me (b.clients me).qos2In := by
  have hquiet : Handled.Quiet me (b.clients me).qos2In (⟨b, []⟩ : Handled cfg κ) := ⟨rfl, hl, rfl⟩
  refine ⟨Handled.reply env me (packetBuildPubrec pub.packetId 4) ⟨b, []⟩, ?_,
    Handled.replies_reply _ _ _ _, hquiet.reply env _⟩
  cases hs : (b.clients me).qos2In.slot pub.packetId with
  | dup => simp [publishAccepted, h2, hs]
  | full => simp [publishAccepted, h2, hs]
  | free i => exact absurd hs (hslot i)

/-- QoS 2 with a new id and a free entry: one call and PUBREC. -/
theorem publishAccepted_qos2_free (h2 : pub.qos = 2) {i : Fin CLIENT_QOS2_IN_MAX}
    (hslot : (b.clients me).qos2In.slot pub.packetId = .free i) :
    ∃ h, publishAccepted env b me pub = some h ∧
      h.replies = (packetBuildPubrec pub.packetId 4).toList ∧
      h.Publishes me ((b.clients me).qos2In.store pub.packetId i) pub
        (StoreReady b env pub) := by
  obtain ⟨h, hrun, hrep, hp⟩ := callPublish_publishes me
    (b := b.updateClient me (·.qos2Store i pub.packetId)) hl env hfits hne hplain hq
  refine ⟨h.reply env me (packetBuildPubrec pub.packetId 4), ?_, ?_, ?_⟩
  · simp [publishAccepted, h2, hslot, hrun]
  · rw [Handled.replies_reply, hrep]
    rfl
  · have hstored := b.updateClient_qos2In me (·.qos2Store i pub.packetId)
    rw [hstored] at hp
    exact hp.reply env _

end

/-- An accepted PUBLISH reaches the rest of `handle_publish`. -/
theorem dispatch_accepted {pkt : MqttPacket} {pub : MqttPublish}
    (h : acceptedPublish pkt = some pub) (env : Env κ) (b : Broker cfg κ) (me : κ) :
    dispatch env b me pkt =
      publishAccepted env (b.updateClient me fun c ↦ { c with lastSeenMs := env.now }) me pub := by
  obtain ⟨hok, htype, hparse, h3, hne, hplain, hid⟩ := acceptedPublish_eq_some h
  have htopic : ¬(pub.topic = [] ∨ hasWildcard pub.topic = true) := by simp [hne, hplain]
  simp [dispatch, hok, dispatchType, htype, handlePublish, hparse, h3, htopic, hid,
    PacketType.publish, PacketType.connect]

theorem releasedId_of_accepted {pkt : MqttPacket} {pub : MqttPublish}
    (h : acceptedPublish pkt = some pub) : releasedId pkt = none := by
  obtain ⟨-, htype, -⟩ := acceptedPublish_eq_some h
  simp [releasedId, htype, PacketType.publish, PacketType.pubrel]

theorem acceptedPublish_fits {pkt : MqttPacket} {pub : MqttPublish}
    (h : acceptedPublish pkt = some pub) : pub.Fits ∧ pub.qos ≤ 2 := by
  obtain ⟨-, -, hparse, -⟩ := acceptedPublish_eq_some h
  obtain ⟨htopic, hpayload, hqos⟩ := packetParsePublish_fits hparse
  exact ⟨⟨htopic, hpayload⟩, hqos⟩

/-- Handling a packet ends and keeps the table linked. -/
theorem dispatch_isLinked {b : Broker cfg κ} (hl : b.table.IsLinked) (env : Env κ) (me : κ)
    (pkt : MqttPacket) : ∃ h, dispatch env b me pkt = some h ∧ h.broker.table.IsLinked := by
  cases hacc : acceptedPublish pkt with
  | none =>
      obtain ⟨h, hrun, hq⟩ := dispatch_quiet me hl hacc env
      exact ⟨h, hrun, hq.linked⟩
  | some pub =>
      obtain ⟨-, -, -, -, hne, hplain, -⟩ := acceptedPublish_eq_some hacc
      obtain ⟨hfits, hq⟩ := acceptedPublish_fits hacc
      rw [dispatch_accepted hacc]
      generalize hb : b.updateClient me (fun c ↦ { c with lastSeenMs := env.now }) = b'
      have hl' : b'.table.IsLinked := hb ▸ hl
      by_cases h2 : pub.qos = 2
      · by_cases hfree : ∃ i, (b'.clients me).qos2In.slot pub.packetId = .free i
        · obtain ⟨i, hi⟩ := hfree
          obtain ⟨h, hrun, -, hp⟩ := publishAccepted_qos2_free hl' env hfits hne hplain hq h2 hi
          exact ⟨h, hrun, hp.linked⟩
        · obtain ⟨h, hrun, -, hp⟩ := publishAccepted_qos2_quiet hl' env h2 (not_exists.mp hfree)
          exact ⟨h, hrun, hp.linked⟩
      · obtain ⟨h, hrun, -, hp⟩ :=
          publishAccepted_qos01 me hl' env hfits hne hplain hq h2
        exact ⟨h, hrun, hp.linked⟩

end MqttBroker
