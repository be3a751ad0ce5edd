import MqttBroker.PublishFrame
import MqttBroker.Session
import MqttBroker.Lib.SlotQueue

/-!
# The queue of a session

What `session_drain` sends of the messages that `session_enqueue` has put into
the slots of a session.
-/

namespace MqttBroker

open SlotQueue

/-- A call for the queue of one session. -/
inductive QueueCall where
  | enqueue (pub : MqttPublish) (pktId : UInt16)
  | drain (c : Client) (now : ℤ) (sendOk : Bool)

/-- A message that the callers of `session_enqueue` hand over. -/
structure Queueable (pub : MqttPublish) : Prop where
  topic_ne : pub.topic ≠ []
  topic_lt : pub.topic.length < MQTT_TOPIC_MAX
  topic_nul : 0 ∉ pub.topic
  no_wildcard : hasWildcard pub.topic = false
  payload_le : pub.payload.length ≤ MQTT_PAYLOAD_MAX
  qos : pub.qos = 1 ∨ pub.qos = 2
  dup : pub.dup = 0 ∨ pub.dup = 1

def QueueCall.Queueable : QueueCall → Prop
  | .enqueue pub _ => MqttBroker.Queueable pub
  | .drain .. => True

/-- The frame is a PUBLISH of the message, with a packet id. -/
def Delivers (pub : MqttPublish) (frame : Bytes) : Prop :=
  ∃ pkt pub', decodeFrame frame = some pkt ∧ packetParsePublish pkt = some pub' ∧
    pub'.topic = pub.topic ∧ pub'.payload = pub.payload ∧ pub'.qos = pub.qos ∧
    pub'.dup = pub.dup ∧ pub'.packetId ≠ 0

namespace Session

/-- `waiting` was accepted since the last drain.  Each drain sends these messages in their order
and leaves the queue empty; a message is refused, and nothing changes, when the queue is full. -/
def Drains : List MqttPublish → Session → List QueueCall → Prop
  | _, _, [] => True
  | waiting, s, .enqueue pub pktId :: calls =>
      let (s', rc) := s.enqueue pub pktId
      (rc = 0 ∨ rc = -1) ∧ (rc = -1 ↔ waiting.length = SESSION_QUEUE_MAX) ∧ (rc = -1 → s' = s) ∧
        Drains (if rc = 0 then waiting ++ [pub] else waiting) s' calls
  | waiting, s, .drain c now sendOk :: calls =>
      let (s', _, frames) := s.drain c now sendOk
      List.Forall₂ Delivers waiting frames ∧ (∀ i, (s'.queue i).inUse = false) ∧
        Drains [] s' calls

/-- At each drain every message in the queue has a packet id. -/
def IdsGiven : Session → List QueueCall → Prop
  | _, [] => True
  | s, .enqueue pub pktId :: calls => IdsGiven (s.enqueue pub pktId).1 calls
  | s, .drain c now sendOk :: calls =>
      (∀ i, (s.queue i).inUse = true → (s.queue i).packetId ≠ 0) ∧
        IdsGiven (s.drain c now sendOk).1 calls

/-! ## Entries and their frames -/

/-- The entry of a message that was accepted. -/
def entry (r : MqttPublish × UInt16) : SessionMsg :=
  ⟨r.1.topic.take (MQTT_TOPIC_MAX - 1), r.1.payload.take MQTT_PAYLOAD_MAX, r.1.qos, r.2, r.1.dup,
    true⟩

/-- The frame that `session_drain` sends for an entry. -/
def entryFrame (m : SessionMsg) : List Bytes :=
  (packetBuildPublish m.toPublish (MQTT_MAX_PACKET_SIZE + 8)).toList

variable {s : Session} {pub : MqttPublish} {pktId : UInt16}

theorem entry_toPublish (h : Queueable pub) : (entry (pub, pktId)).toPublish =
    ⟨pub.topic, pub.payload, pub.qos, 0, pub.dup, pktId⟩ := by
  have htopic : pub.topic.take (MQTT_TOPIC_MAX - 1) = pub.topic :=
    List.take_of_length_le (Nat.le_pred_of_lt h.topic_lt)
  simp [entry, SessionMsg.toPublish, htopic, List.take_of_length_le h.payload_le]

theorem entryFrame_zero (h : Queueable pub) : entryFrame (entry (pub, 0)) = [] := by
  have hpos : 0 < pub.qos := by
    rcases h.qos with hq | hq <;> rw [hq] <;> decide
  simp [entryFrame, entry_toPublish h, packetBuildPublish, hpos]

theorem entryFrame_delivers (h : Queueable pub) (hid : pktId ≠ 0) :
    ∃ frame, entryFrame (entry (pub, pktId)) = [frame] ∧ Delivers pub frame := by
  set m : MqttPublish := ⟨pub.topic, pub.payload, pub.qos, 0, pub.dup, pktId⟩ with hm
  have hpos : 0 < pub.qos := by
    rcases h.qos with hq | hq <;> rw [hq] <;> decide
  have hdup : pub.dup &&& 1 = pub.dup := by
    rcases h.dup with hd | hd <;> rw [hd] <;> decide
  have hsend : m.Sendable := by
    refine ⟨h.topic_lt, h.topic_ne, h.no_wildcard, ?_, fun _ ↦ hid, h.payload_le⟩
    rcases h.qos with hq | hq <;> simp only [hm, hq] <;> decide
  obtain ⟨enc, -, hbuild⟩ := packetBuildPublish_eq hsend
  refine ⟨publishHeader m :: (enc ++ publishBody m), ?_, ?_⟩
  · rw [entryFrame, entry_toPublish h, hbuild]
    rfl
  · have hfits : RetainFits m := by
      refine ⟨fun hne ↦ absurd rfl hne, ?_, ?_⟩
      · show pub.qos ||| qosBits 0 = pub.qos
        simp [qosBits]
      · show (pub.dup &&& 1 : UInt8) ||| dupBit 0 = pub.dup &&& 1
        simp [dupBit]
    have hnul : 0 ∉ m.topic := h.topic_nul
    obtain ⟨pkt, pub', hpkt, hparse, htopic, hpayload, hqos, hpub, hd, -⟩ :=
      (roundTrips_iff hnul hbuild).mpr hfits
    exact ⟨pkt, pub', hpkt, hparse, htopic, hpayload, hqos, hd.trans hdup, hpub hpos ▸ hid⟩

/-! ## The calls on the slots -/

theorem drainEntry_frames (m : SessionMsg) (now : ℤ) (sendOk : Bool) (r : Client × List Bytes) :
    (drainEntry m now sendOk r).2 = r.2 ++ entryFrame m := by
  rw [drainEntry, entryFrame]
  cases hbuild : packetBuildPublish m.toPublish (MQTT_MAX_PACKET_SIZE + 8) <;> simp

theorem drain_frames (s : Session) (c : Client) (now : ℤ) (sendOk : Bool) :
    (s.drain c now sendOk).2.2 = (List.finRange SESSION_QUEUE_MAX).flatMap fun i ↦
      if (s.queue i).inUse then entryFrame (s.queue i) else [] := by
  have hfold : ∀ (l : List (Fin SESSION_QUEUE_MAX)) (r : Client × List Bytes),
      (l.foldl (s.drainOne now sendOk) r).2 = r.2 ++ l.flatMap fun i ↦
        if (s.queue i).inUse then entryFrame (s.queue i) else [] := by
    intro l
    induction l with
    | nil => intro r; simp
    | cons i l ih =>
        intro r
        have hone : (s.drainOne now sendOk r i).2 =
            r.2 ++ if (s.queue i).inUse then entryFrame (s.queue i) else [] := by
          unfold drainOne
          split_ifs
          · exact drainEntry_frames _ now sendOk r
          · simp
        rw [List.foldl_cons, ih, hone, List.append_assoc, List.flatMap_cons]
  exact (hfold _ (c, [])).trans (List.nil_append _)

/-- The entries in use are those of the waiting messages, in their order. -/
abbrev Holding (s : Session) (waiting : List (MqttPublish × UInt16)) : Prop :=
  Queued SessionMsg.inUse s.queue (waiting.map entry)

variable {waiting : List (MqttPublish × UInt16)}

theorem enqueue_eq (s : Session) (pub : MqttPublish) (pktId : UInt16) :
    s.enqueue pub pktId = match firstUnused SessionMsg.inUse s.queue with
      | some i => ({ s with queue := Function.update s.queue i (entry (pub, pktId)) }, 0)
      | none => (s, -1) := rfl

theorem Holding.enqueue (h : s.Holding waiting) (pub : MqttPublish) (pktId : UInt16) :
    waiting.length = SESSION_QUEUE_MAX ∧ s.enqueue pub pktId = (s, -1) ∨
      waiting.length ≠ SESSION_QUEUE_MAX ∧ (s.enqueue pub pktId).2 = 0 ∧
        (s.enqueue pub pktId).1.Holding (waiting ++ [(pub, pktId)]) := by
  have hfull := h.firstUnused_eq_none_iff
  rw [List.length_map] at hfull
  rw [enqueue_eq]
  cases hfirst : firstUnused SessionMsg.inUse s.queue with
  | none => exact .inl ⟨hfull.mp hfirst, rfl⟩
  | some i =>
      refine .inr ⟨fun hlen ↦ ?_, rfl, ?_⟩
      · rw [hfull.mpr hlen] at hfirst
        cases hfirst
      · rw [Holding, List.map_append]
        exact h.push hfirst rfl

theorem Holding.drain_frames (h : s.Holding waiting) (c : Client) (now : ℤ) (sendOk : Bool) :
    (s.drain c now sendOk).2.2 = waiting.flatMap fun r ↦ entryFrame (entry r) := by
  rw [Session.drain_frames, h.flatMap, List.flatMap_map]

theorem holding_nil (h : ∀ i, (s.queue i).inUse = false) : s.Holding [] := queued_nil h

theorem entryFrame_length_le (m : SessionMsg) : (entryFrame m).length ≤ 1 := by
  unfold entryFrame
  cases packetBuildPublish m.toPublish (MQTT_MAX_PACKET_SIZE + 8) <;> simp

/-- A frame is sent for each message if and only if all of them have ids. -/
theorem forall₂_delivers_iff (hw : ∀ r ∈ waiting, Queueable r.1) :
    List.Forall₂ Delivers (waiting.map Prod.fst) (waiting.flatMap fun r ↦ entryFrame (entry r)) ↔
      ∀ r ∈ waiting, r.2 ≠ 0 := by
  induction waiting with
  | nil => simp
  | cons r waiting ih =>
      have hr := hw r List.mem_cons_self
      have ih := ih fun r hr ↦ hw r (List.mem_cons_of_mem _ hr)
      obtain ⟨pub, pktId⟩ := r
      by_cases hid : pktId = 0
      · subst hid
        refine iff_of_false (fun hall ↦ ?_) (fun hall ↦ hall _ List.mem_cons_self rfl)
        have hle : (waiting.flatMap fun r ↦ entryFrame (entry r)).length ≤ waiting.length := by
          rw [List.length_flatMap]
          have hsum := List.sum_le_card_nsmul
            (waiting.map fun r ↦ (entryFrame (entry r)).length) 1
            (fun n hn ↦ by
              obtain ⟨r, -, rfl⟩ := List.mem_map.mp hn
              exact entryFrame_length_le _)
          simpa using hsum
        have hlen := hall.length_eq
        rw [List.flatMap_cons, entryFrame_zero hr] at hlen
        simp only [List.nil_append, List.length_map, List.length_cons] at hlen
        omega
      · obtain ⟨frame, hframe, hdelivers⟩ := entryFrame_delivers hr hid
        rw [List.flatMap_cons, hframe, List.map_cons, List.singleton_append,
          List.forall₂_cons, ih, List.forall_mem_cons]
        simp [hdelivers, hid]

theorem Holding.ids_iff (h : s.Holding waiting) :
    (∀ i, (s.queue i).inUse = true → (s.queue i).packetId ≠ 0) ↔ ∀ r ∈ waiting, r.2 ≠ 0 := by
  have hlen : (waiting.map entry).length = waiting.length := List.length_map _
  constructor
  · intro hall r hr
    obtain ⟨k, hk, rfl⟩ := List.getElem_of_mem hr
    have hslot := h.slot k (hlen ▸ hk)
    rw [List.getElem_map] at hslot
    have hid := hall ⟨k, (hlen ▸ hk).trans_le h.fits⟩ (by rw [hslot]; rfl)
    rwa [hslot] at hid
  · intro hall i hi
    have hlt := h.used_iff.mp hi
    have hslot := h.slot i hlt
    rw [List.getElem_map] at hslot
    rw [show s.queue i = entry _ from hslot]
    exact hall _ (List.getElem_mem _)

theorem Holding.drains_iff (h : s.Holding waiting) (hw : ∀ r ∈ waiting, Queueable r.1)
    {calls : List QueueCall} (hcalls : ∀ call ∈ calls, call.Queueable) :
    Drains (waiting.map Prod.fst) s calls ↔ s.IdsGiven calls := by
  induction calls generalizing s waiting with
  | nil => exact Iff.rfl
  | cons call calls ih =>
      have hrest : ∀ call ∈ calls, call.Queueable :=
        fun call hcall ↦ hcalls call (List.mem_cons_of_mem _ hcall)
      cases call with
      | enqueue pub pktId =>
          rw [Drains, IdsGiven]
          rcases h.enqueue pub pktId with ⟨hfull, hsame⟩ | ⟨hroom, hrc, hhold⟩
          · rw [hsame]
            simpa [hfull] using ih h hw hrest
          · have hpub : Queueable pub := hcalls _ List.mem_cons_self
            have hnext := ih hhold (fun r hr ↦ (List.mem_append.mp hr).elim (hw r) fun hr ↦ by
              rw [List.mem_singleton.mp hr]
              exact hpub) hrest
            dsimp only
            rw [hrc]
            simpa [hroom] using hnext
      | drain c now sendOk =>
          rw [Drains, IdsGiven]
          dsimp only
          rw [h.drain_frames, forall₂_delivers_iff hw, h.ids_iff]
          have hempty : ∀ i, ((s.drain c now sendOk).1.queue i).inUse = false := fun _ ↦ rfl
          refine and_congr_right fun _ ↦ ?_
          rw [← ih (holding_nil hempty) (by simp) hrest]
          exact and_iff_right hempty

/-- From an empty queue on, each drain sends what was accepted since the last one, if and only if
no message is in the queue without a packet id. -/
theorem drains_iff_idsGiven (hempty : ∀ i, (s.queue i).inUse = false) {calls : List QueueCall}
    (hcalls : ∀ call ∈ calls, call.Queueable) : Drains [] s calls ↔ s.IdsGiven calls :=
  (holding_nil hempty).drains_iff (by simp) hcalls

/-- A message of QoS 1 for the topic `a`. -/
def letter : MqttPublish := ⟨[97], [1, 2], 1, 0, 0, 0⟩

theorem queueable_letter : Queueable letter := by
  constructor <;> decide

/-- Two messages with ids of their own, and then a drain. -/
theorem drains_iff_idsGiven_two : Drains [] (freshSession [99])
    [.enqueue letter 7, .enqueue letter 9, .drain default 0 true] := by
  have hcalls : ∀ call ∈ [QueueCall.enqueue letter 7, .enqueue letter 9, .drain default 0 true],
      call.Queueable := by
    simp [QueueCall.Queueable, queueable_letter]
  have hids : IdsGiven (freshSession [99])
      [.enqueue letter 7, .enqueue letter 9, .drain default 0 true] :=
    ⟨by decide +kernel, trivial⟩
  exact (drains_iff_idsGiven (fun _ ↦ rfl) hcalls).mpr hids

/-- The id 0 that is meant for a new message: the drain clears it and sends nothing. -/
theorem zero_id_not_sent : ¬ ∀ (s : Session), (∀ i, (s.queue i).inUse = false) →
    ∀ calls : List QueueCall, (∀ call ∈ calls, call.Queueable) → Drains [] s calls := by
  intro hall
  have hrun := hall (freshSession [99]) (fun _ ↦ rfl) [.enqueue letter 0, .drain default 0 true]
    (by simp [QueueCall.Queueable, queueable_letter])
  obtain ⟨-, -, -, hsent, -⟩ := hrun
  have hlen : [letter].length = ([] : List Bytes).length := hsent.length_eq
  cases hlen

end Session

end MqttBroker
