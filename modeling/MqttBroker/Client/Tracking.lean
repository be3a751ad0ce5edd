import MqttBroker.Client.PacketIds

/-!
# Tracking outbound messages

A QoS 1 or QoS 2 message that is sent while the table has a free entry stays in
the table, is sent again by `client_inflight_retry` and has its PUBREC answered,
until an acknowledgement with its packet id comes.
-/

namespace MqttBroker

/-- The entry is in use for the message that was sent as `buf`: it holds that
frame, its DUP bit set or not, or the PUBREL that a QoS 2 message's PUBREC led to. -/
structure Inflight.Holds (e : Inflight) (pub : MqttPublish) (buf : Bytes) : Prop where
  inUse : e.inUse = true
  packetId : e.packetId = pub.packetId
  qos : e.qos = pub.qos
  publish : e.waitingPubcomp = false → e.buf = buf ∨ e.buf = Client.setDup buf
  pubrel : e.waitingPubcomp = true → e.qos = 2 ∧ packetBuildPubrel pub.packetId 4 = some e.buf

theorem Client.setDup_setDup (buf : Bytes) : setDup (setDup buf) = setDup buf := by
  cases buf with
  | nil => rfl
  | cons b rest =>
      have hbit : b ||| 0x08 ||| 0x08 = b ||| 0x08 := by rw [UInt8.or_assoc, UInt8.or_self]
      simp [setDup, hbit]

namespace Inflight.Holds

variable {e : Inflight} {pub : MqttPublish} {buf : Bytes}

theorem retryEntry (h : e.Holds pub buf) (now : ℤ) :
    (Client.retryEntry now e).1.Holds pub buf := by
  unfold Client.retryEntry
  split_ifs with hskip hrel
  · exact h
  · exact ⟨h.inUse, h.packetId, h.qos, h.publish, h.pubrel⟩
  · refine ⟨h.inUse, h.packetId, h.qos, fun hw ↦ Or.inr ?_, fun hw ↦ ?_⟩
    · rcases h.publish hw with heq | heq <;> dsimp only <;> rw [heq]
      exact Client.setDup_setDup buf
    · exact absurd ⟨(h.pubrel hw).1, hw⟩ hrel

end Inflight.Holds

/-- A PUBREC turns the first entry that waits for it into one that holds the PUBREL. -/
theorem Client.pubrec_inflight (c : Client) (id : UInt16) (now : ℤ) (sendOk : Bool) :
    (c.pubrec id now sendOk).1.inflight = c.inflight ∨
      ∃ j rel, (c.inflight j).packetId = id ∧ (c.inflight j).qos = 2 ∧
        packetBuildPubrel id 4 = some rel ∧ (c.pubrec id now sendOk).1.inflight =
          Function.update c.inflight j
            { c.inflight j with waitingPubcomp := true, sentAtMs := now, buf := rel } := by
  unfold pubrec
  split
  · exact Or.inl rfl
  · rename_i j hj
    have hj := List.find?_some hj
    simp only [Bool.and_eq_true, decide_eq_true_eq] at hj
    obtain ⟨⟨⟨-, hid⟩, hqos⟩, -⟩ := hj
    split
    · exact Or.inl rfl
    · rename_i rel hrel
      refine Or.inr ⟨j, rel, hid, hqos, hrel, ?_⟩
      dsimp only
      rw [clientSend_inflight]

/-- The entry stays what it is while other messages come and go. -/
theorem SenderStep.holds {ev : SendEvent} {s s' : Sender} (h : SenderStep ev s s')
    {i : Fin CLIENT_INFLIGHT_MAX} {pub : MqttPublish} {buf : Bytes}
    (hi : (s.client.inflight i).Holds pub buf)
    (hev : ev ≠ .puback pub.packetId ∧ ev ≠ .pubcomp pub.packetId) :
    (s'.client.inflight i).Holds pub buf := by
  have hrelease : ∀ id, id ≠ pub.packetId →
      (InflightTable.release s.client.inflight id i).Holds pub buf := by
    intro id hid
    rw [InflightTable.release_apply, if_neg]
    · exact hi
    · intro hacked
      exact hid ((InflightTable.acked_some hacked).2.symm.trans hi.packetId)
  have hpublish : ∀ {source : IdSource} {out : MqttPublish} {frame : Bytes} {now : ℤ}
      {sendOk : Bool}, 0 < out.qos →
      ((s.publish source out frame now sendOk).client.inflight i).Holds pub buf := by
    intro source out frame now sendOk hqos
    rcases s.publish_entry source hqos frame now sendOk i with ⟨hfree, -⟩ | ⟨-, hold, -⟩
    · exact absurd (InflightTable.free_some hfree) (by simp [hi.inUse])
    · rwa [hold]
  cases h with
  | take => exact hi
  | fanOut hqos => exact hpublish hqos
  | drain hqos => exact hpublish hqos
  | puback _ id =>
      dsimp only
      rw [Client.inflightAck_inflight]
      exact hrelease id fun hid ↦ hev.1 (by rw [hid])
  | pubcomp _ id =>
      dsimp only
      rw [Client.inflightAck_inflight]
      exact hrelease id fun hid ↦ hev.2 (by rw [hid])
  | pubrec _ id now sendOk =>
      dsimp only
      rcases s.client.pubrec_inflight id now sendOk with heq | ⟨j, rel, hid, hqos, hrel, heq⟩ <;>
        rw [heq]
      · exact hi
      · by_cases hij : i = j
        · subst hij
          rw [Function.update_self]
          rw [← hid, hi.packetId] at hrel
          exact ⟨hi.inUse, hi.packetId, hi.qos, by simp, fun _ ↦ ⟨hqos, hrel⟩⟩
        · rwa [Function.update_of_ne hij]
  | retry _ now sendOk =>
      dsimp only
      rw [Client.inflightRetry_inflight]
      exact hi.retryEntry now
  | other htable => rwa [htable]

/-! ## What holding a message is for -/

/-- The message in entry `i` is sent again when its time has come, and its
PUBREC is answered. -/
structure Client.Serves (c : Client) (i : Fin CLIENT_INFLIGHT_MAX) (pub : MqttPublish)
    (buf : Bytes) : Prop where
  retried : ∀ now sendOk, CLIENT_INFLIGHT_RETRY_MS ≤ now - (c.inflight i).sentAtMs →
    ((c.inflight i).waitingPubcomp = false → setDup buf ∈ (c.inflightRetry now sendOk).2) ∧
    ((c.inflight i).waitingPubcomp = true → ∃ rel, packetBuildPubrel pub.packetId 4 = some rel ∧
      rel ∈ (c.inflightRetry now sendOk).2)
  answered : pub.qos = 2 → (c.inflight i).waitingPubcomp = false → ∀ now sendOk,
    ∃ rel, packetBuildPubrel pub.packetId 4 = some rel ∧
      (c.pubrec pub.packetId now sendOk).2 = [rel]

theorem SenderRun.last {hist : List SendRecord} {r : SendRecord} {s : Sender}
    (hrun : SenderRun (hist ++ [r]) s) :
    SenderRun hist r.before ∧ SenderStep r.event r.before r.after ∧ s = r.after := by
  generalize hfull : hist ++ [r] = full at hrun
  cases hrun with
  | start => simp at hfull
  | step hrun hstep =>
      obtain ⟨rfl, hr⟩ := List.append_inj' hfull rfl
      obtain rfl := List.singleton_inj.mp hr
      exact ⟨hrun, hstep, rfl⟩

end MqttBroker
