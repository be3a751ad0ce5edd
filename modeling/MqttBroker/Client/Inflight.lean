import MqttBroker.Client.Evolve

/-!
# Messages in flight

An outbound QoS 1 message lives as a frame in the inflight table, as an entry
of the session queue while its client is away, and as a frame again after the
reconnect.  Here is what each of the conversions keeps of the message.
-/

namespace MqttBroker

open Relation

/-! ## Frames -/

/-- The message as it is sent again. -/
def MqttPublish.again (pub : MqttPublish) : MqttPublish := { pub with retain := 0, dup := 1 }

theorem MqttPublish.Sendable.again {pub : MqttPublish} (h : pub.Sendable) : pub.again.Sendable :=
  ⟨h.topic_lt, h.topic_ne, h.no_wildcard, h.qos_le, h.id_ne, h.payload_le⟩

theorem publishHeader_dup {pub : MqttPublish} (hq : pub.qos ≤ 2) (hr : pub.retain ≤ 1) :
    publishHeader { pub with dup := 1 } = publishHeader pub ||| 0x08 := by
  have hret : pub.retain = 0 ∨ pub.retain = 1 := by grind
  unfold publishHeader
  dsimp only
  rcases u8_and_one pub.dup with hd | hd <;> rcases u8_le_two hq with hq | hq | hq <;>
    rcases hret with hr | hr <;> rw [hd, hq, hr] <;> decide

/-- Setting DUP in a frame gives the frame of the message with DUP set. -/
theorem build_setDup {pub : MqttPublish} {frame : Bytes} (hr : pub.retain ≤ 1)
    (h : packetBuildPublish pub PUBLISH_FRAME_MAX = some frame) :
    packetBuildPublish { pub with dup := 1 } PUBLISH_FRAME_MAX = some (Client.setDup frame) := by
  have hs := sendable_of_build h
  obtain ⟨enc, henc, hframe⟩ := packetBuildPublish_eq hs
  have hs' : ({ pub with dup := 1 } : MqttPublish).Sendable :=
    ⟨hs.topic_lt, hs.topic_ne, hs.no_wildcard, hs.qos_le, hs.id_ne, hs.payload_le⟩
  obtain ⟨enc', henc', hframe'⟩ := packetBuildPublish_eq hs'
  have hbody : publishBody { pub with dup := 1 } = publishBody pub := rfl
  rw [hbody, henc] at henc'
  obtain rfl := Option.some.inj henc'
  obtain rfl := Option.some.inj (h.symm.trans hframe)
  rw [PUBLISH_FRAME_MAX, hframe', hbody, publishHeader_dup hs.qos_le hr]
  rfl

/-! ## Entries of the inflight table -/

/-- The entry holds a frame of `pub`. -/
structure Inflight.Carries (e : Inflight) (pub : MqttPublish) : Prop where
  nul : 0 ∉ pub.topic
  retain : pub.retain ≤ 1
  qos : pub.qos = e.qos
  id : pub.packetId = e.packetId
  frame : packetBuildPublish pub PUBLISH_FRAME_MAX = some e.buf

/-- A QoS 1 entry in use holds the frame of a message. -/
def Inflight.Qos1Ok (e : Inflight) : Prop :=
  e.inUse = true → e.qos = 1 → ∃ pub, e.Carries pub

def Client.Qos1Ok (c : Client) : Prop := ∀ i, (c.inflight i).Qos1Ok

theorem Inflight.Qos1Ok.retryEntry {e : Inflight} (h : e.Qos1Ok) (now : ℤ) :
    (Client.retryEntry now e).1.Qos1Ok := by
  by_cases hskip : !e.inUse ∨ now - e.sentAtMs < CLIENT_INFLIGHT_RETRY_MS
  · rwa [Client.retryEntry, if_pos hskip]
  · rw [Client.retryEntry, if_neg hskip]
    intro huse (hqos : e.qos = 1)
    obtain ⟨pub, hpub⟩ := h huse hqos
    refine ⟨{ pub with dup := 1 }, hpub.nul, hpub.retain, hpub.qos, hpub.id, ?_⟩
    simpa [hqos] using build_setDup hpub.retain hpub.frame

theorem Client.Qos1Ok.update {c : Client} (h : c.Qos1Ok) (i : Fin CLIENT_INFLIGHT_MAX)
    {e : Inflight} (he : e.Qos1Ok) :
    Client.Qos1Ok { c with inflight := Function.update c.inflight i e } := by
  intro j
  by_cases hj : j = i
  · subst hj
    simpa using he
  · simpa [hj] using h j

theorem Client.Qos1Ok.congr {c c' : Client} (h : c.Qos1Ok) (heq : c'.inflight = c.inflight) :
    c'.Qos1Ok := by
  unfold Client.Qos1Ok
  rwa [heq]

theorem Client.Qos1Ok.step {c c' : Client} (h : c.Qos1Ok) (hstep : ClientStep c c') :
    c'.Qos1Ok := by
  cases hstep with
  | sent hsend =>
      cases hsend with
      | send => exact h.congr (c.clientSend_inflight _)
      | takeId => exact h.congr rfl
      | store pub buf now hnul hretain hbuild =>
          unfold Client.inflightStore
          split
          · exact h.update _ fun _ _ ↦ ⟨pub, hnul, hretain, rfl, rfl, hbuild⟩
          · exact h
  | ack id =>
      unfold Client.inflightAck
      split
      · exact h.update _ fun hfree ↦ by simp at hfree
      · exact h
  | pubrec id now sendOk =>
      unfold Client.pubrec
      split
      · exact h
      · rename_i i hi
        have hqos : (c.inflight i).qos = 2 := by
          have hp := List.find?_some hi
          simp only [Bool.and_eq_true, decide_eq_true_eq] at hp
          exact hp.1.2
        split
        · exact h
        · refine Client.Qos1Ok.update (h.congr (c.clientSend_inflight sendOk)) i ?_
          intro _ h1
          rw [show ({ (c.clientSend sendOk).inflight i with
            waitingPubcomp := true, sentAtMs := now, buf := _ } : Inflight).qos =
              (c.inflight i).qos by rw [c.clientSend_inflight], hqos] at h1
          simp at h1
  | retry now sendOk =>
      have hretry : Client.Qos1Ok
          { c with inflight := fun i ↦ (Client.retryEntry now (c.inflight i)).1 } :=
        fun i ↦ (h i).retryEntry now
      unfold Client.inflightRetry
      dsimp only
      split_ifs
      · exact hretry
      · exact hretry.congr (Client.clientSend_inflight _ _)
  | mark => exact h.congr rfl

theorem Client.Qos1Ok.steps {c c' : Client} (h : c.Qos1Ok)
    (hsteps : ReflTransGen ClientStep c c') : c'.Qos1Ok := by
  induction hsteps with
  | refl => exact h
  | tail _ hstep ih => exact ih.step hstep

/-- Sending leaves the entries in use alone. -/
theorem SendStep.inflight_kept {c c' : Client} (h : SendStep c c')
    {i : Fin CLIENT_INFLIGHT_MAX} (hi : (c.inflight i).inUse = true) :
    c'.inflight i = c.inflight i := by
  cases h with
  | send => rw [c.clientSend_inflight]
  | takeId => rfl
  | store pub buf now =>
      unfold Client.inflightStore
      split
      · rename_i j hj
        have hfree : (c.inflight j).inUse = false := by simpa using List.find?_some hj
        have hij : i ≠ j := by
          rintro rfl
          simp [hfree] at hi
        simp [hij]
      · rfl

theorem sendSteps_inflight_kept {c c' : Client} (h : ReflTransGen SendStep c c')
    {i : Fin CLIENT_INFLIGHT_MAX} (hi : (c.inflight i).inUse = true) :
    c'.inflight i = c.inflight i := by
  induction h with
  | refl => rfl
  | tail _ hstep ih => exact (hstep.inflight_kept (ih ▸ hi)).trans ih

/-! ## From the table to the session queue -/

theorem Inflight.Carries.reparse {e : Inflight} {pub : MqttPublish} (h : e.Carries pub)
    (hpos : 0 < pub.qos) :
    ∃ retain dup, e.reparse = some ⟨pub.topic, pub.payload, pub.qos, retain, dup, pub.packetId⟩ := by
  have hs := sendable_of_build h.frame
  obtain ⟨enc, henc, hframe⟩ := packetBuildPublish_eq hs
  have hbuf : e.buf = publishHeader pub :: (enc ++ publishBody pub) :=
    Option.some.inj (h.frame.symm.trans hframe)
  have hbody := packetParsePublish_body hs h.nul
    (publishHeader_qos hs.qos_le h.retain).1 0
  refine ⟨publishHeader pub &&& 1, (publishHeader pub >>> 3) &&& 1, ?_⟩
  rw [Inflight.reparse, hbuf]
  simp only [packetDecode_packetEncode henc, Option.bind_eq_bind, Option.bind_some,
    List.drop_left, List.take_length, hbody, if_pos hpos]

/-- The queue holds the message, marked as sent before. -/
def Session.Holds (s : Session) (pub : MqttPublish) : Prop :=
  ∃ j, s.queue j = ⟨pub.topic, pub.payload, pub.qos, pub.packetId, 1, true⟩

/-- Queue entries in use stay as they are. -/
def Session.QueueKept (s s' : Session) : Prop :=
  ∀ j, (s.queue j).inUse = true → s'.queue j = s.queue j

theorem Session.Holds.kept {s s' : Session} {pub : MqttPublish} (h : s.Holds pub)
    (hk : s.QueueKept s') : s'.Holds pub := by
  obtain ⟨j, hj⟩ := h
  exact ⟨j, (hk j (by rw [hj])).trans hj⟩

theorem Session.enqueue_kept (s : Session) (pub : MqttPublish) (id : UInt16) :
    s.QueueKept (s.enqueue pub id).1 := by
  intro j hj
  rcases s.enqueue_cases pub id with ⟨i, hi, heq⟩ | ⟨-, heq⟩
  · have hij : j ≠ i := by
      rintro rfl
      simp [hi] at hj
    simp [heq, hij]
  · rw [heq]

theorem Session.saveInflight_kept (s : Session) (e : Inflight) :
    s.QueueKept (s.saveInflight e) := by
  unfold Session.saveInflight
  split_ifs
  · exact fun _ _ ↦ rfl
  · cases e.reparse with
    | none => exact fun _ _ ↦ rfl
    | some pub => exact s.enqueue_kept _ _

/-- The number of queue entries in use. -/
def Session.used (s : Session) : ℕ :=
  (Finset.univ.filter fun j ↦ (s.queue j).inUse = true).card

theorem Session.exists_free {s : Session} (h : s.used < SESSION_QUEUE_MAX) :
    ∃ j, (s.queue j).inUse = false := by
  by_contra hall
  have hfull : Finset.univ.filter (fun j ↦ (s.queue j).inUse = true) = Finset.univ := by
    apply Finset.filter_true_of_mem
    intro j _
    by_contra hj
    exact hall ⟨j, by simpa using hj⟩
  rw [Session.used, hfull] at h
  simp at h

theorem Session.used_enqueue (s : Session) (pub : MqttPublish) (id : UInt16) :
    (s.enqueue pub id).1.used ≤ s.used + 1 := by
  rcases s.enqueue_cases pub id with ⟨i, hi, heq⟩ | ⟨-, heq⟩
  · rw [heq]
    refine le_trans (Finset.card_le_card ?_) (Finset.card_insert_le i _)
    intro j hj
    by_cases hji : j = i
    · simp [hji]
    · simpa [hji] using hj
  · rw [heq]
    omega

theorem Session.used_saveInflight (s : Session) (e : Inflight) :
    (s.saveInflight e).used ≤ s.used + 1 := by
  unfold Session.saveInflight
  split_ifs
  · omega
  · cases e.reparse with
    | none => exact Nat.le_succ _
    | some pub => exact s.used_enqueue _ _

/-- With a free queue entry a QoS 1 message in flight goes to the queue. -/
theorem Session.saveInflight_holds {s : Session} {e : Inflight} {pub : MqttPublish}
    (hfree : ∃ j, (s.queue j).inUse = false) (huse : e.inUse = true) (hqos : e.qos = 1)
    (h : e.Carries pub) : (s.saveInflight e).Holds pub := by
  have hpos : 0 < pub.qos := by rw [h.qos, hqos]; decide
  obtain ⟨retain, dup, hparse⟩ := h.reparse hpos
  have hs := sendable_of_build h.frame
  have htopic : pub.topic.take (MQTT_TOPIC_MAX - 1) = pub.topic := by
    apply List.take_of_length_le
    have := hs.topic_lt
    simp only [MQTT_TOPIC_MAX] at this ⊢
    omega
  have hpayload : pub.payload.take MQTT_PAYLOAD_MAX = pub.payload :=
    List.take_of_length_le hs.payload_le
  unfold Session.saveInflight
  rw [if_neg (by simp [huse, hqos]), hparse]
  dsimp only
  rcases s.enqueue_cases ⟨pub.topic, pub.payload, pub.qos, retain, 1, pub.packetId⟩ e.packetId with
    ⟨i, -, heq⟩ | ⟨hfull, -⟩
  · refine ⟨i, ?_⟩
    rw [heq]
    simp [htopic, hpayload, h.id]
  · obtain ⟨j, hj⟩ := hfree
    simp [hfull j] at hj

theorem Session.foldl_saveInflight_kept (l : List Inflight) (s : Session) :
    s.QueueKept (l.foldl Session.saveInflight s) := by
  induction l generalizing s with
  | nil => exact fun _ _ ↦ rfl
  | cons e l ih =>
      intro j hj
      have hone := s.saveInflight_kept e j hj
      exact (ih (s.saveInflight e) j (by rwa [hone])).trans hone

theorem Session.foldl_saveInflight_holds {l : List Inflight} {s : Session}
    (hroom : s.used + l.length ≤ SESSION_QUEUE_MAX) {e : Inflight} (he : e ∈ l)
    {pub : MqttPublish} (huse : e.inUse = true) (hqos : e.qos = 1) (h : e.Carries pub) :
    (l.foldl Session.saveInflight s).Holds pub := by
  induction l generalizing s with
  | nil => simp at he
  | cons e' l ih =>
      simp only [List.length_cons] at hroom
      rcases List.mem_cons.mp he with rfl | he
      · have hfree := Session.exists_free (s := s) (by omega)
        exact (Session.saveInflight_holds hfree huse hqos h).kept
          (Session.foldl_saveInflight_kept l _)
      · have hused := s.used_saveInflight e'
        exact ih (by omega) he

/-- From an empty queue all four QoS 1 entries of a client are saved. -/
theorem Session.saveInflights_holds {s : Session} (hempty : ∀ j, (s.queue j).inUse = false)
    {c : Client} {i : Fin CLIENT_INFLIGHT_MAX} {pub : MqttPublish}
    (huse : (c.inflight i).inUse = true) (hqos : (c.inflight i).qos = 1)
    (h : (c.inflight i).Carries pub) : (s.saveInflights c).Holds pub := by
  have hused : s.used = 0 := by simp [Session.used, hempty]
  refine Session.foldl_saveInflight_holds ?_ (List.mem_map_of_mem (List.mem_finRange i))
    huse hqos h
  rw [hused, List.length_map, List.length_finRange]
  decide

/-! ## From the session queue to the wire -/

theorem Session.drainOne_mono {s : Session} {now : ℤ} {sendOk : Bool}
    {r : Client × List Bytes} {frame : Bytes} (h : frame ∈ r.2) (i : Fin SESSION_QUEUE_MAX) :
    frame ∈ (s.drainOne now sendOk r i).2 := by
  unfold Session.drainOne Session.drainEntry
  split_ifs
  · dsimp only
    split
    · exact h
    · exact List.mem_append_left _ h
  · exact h

/-- Draining sends every entry that can be built. -/
theorem Session.drain_sends {s : Session} {j : Fin SESSION_QUEUE_MAX} {frame : Bytes}
    (huse : (s.queue j).inUse = true)
    (hbuild : packetBuildPublish (s.queue j).toPublish PUBLISH_FRAME_MAX = some frame)
    (c : Client) (now : ℤ) (sendOk : Bool) : frame ∈ (s.drain c now sendOk).2.2 := by
  have hone : ∀ r, frame ∈ (s.drainOne now sendOk r j).2 := by
    intro r
    rw [Session.drainOne, if_pos huse, Session.drainEntry]
    rw [PUBLISH_FRAME_MAX] at hbuild
    simp [hbuild]
  have hfold : ∀ (l : List (Fin SESSION_QUEUE_MAX)) (r : Client × List Bytes),
      j ∈ l ∨ frame ∈ r.2 → frame ∈ (l.foldl (s.drainOne now sendOk) r).2 := by
    intro l
    induction l with
    | nil => simp
    | cons i l ih =>
        rintro r (hr | hr)
        · rcases List.mem_cons.mp hr with rfl | hr
          · exact ih _ (Or.inr (hone r))
          · exact ih _ (Or.inl hr)
        · exact ih _ (Or.inr (Session.drainOne_mono hr i))
  exact hfold _ _ (Or.inl (List.mem_finRange j))

theorem Session.drain_steps {s : Session} (hs : s.QueueOk) (c : Client) (now : ℤ)
    (sendOk : Bool) : ReflTransGen SendStep c (s.drain c now sendOk).2.1 :=
  sendStep_rule.drain (fun i huse ↦
    ⟨not_mem_take (hs i huse) _, (by decide : (0 : UInt8) ≤ 1)⟩) c now sendOk

/-- What `Holds` a message sends it again. -/
theorem Session.Holds.drain {s : Session} {pub : MqttPublish} (h : s.Holds pub)
    (hs : pub.Sendable) (c : Client) (now : ℤ) (sendOk : Bool) :
    ∃ frame, packetBuildPublish pub.again PUBLISH_FRAME_MAX = some frame ∧
      frame ∈ (s.drain c now sendOk).2.2 := by
  obtain ⟨j, hj⟩ := h
  obtain ⟨enc, -, hframe⟩ := packetBuildPublish_eq hs.again
  have htopic : pub.topic.take (MQTT_TOPIC_MAX - 1) = pub.topic := by
    apply List.take_of_length_le
    have := hs.topic_lt
    simp only [MQTT_TOPIC_MAX] at this ⊢
    omega
  have hagain : (s.queue j).toPublish = pub.again := by
    rw [hj, SessionMsg.toPublish, htopic]
    rfl
  refine ⟨_, hframe, Session.drain_sends (j := j) (by rw [hj]) ?_ c now sendOk⟩
  rw [hagain]
  exact hframe

end MqttBroker
