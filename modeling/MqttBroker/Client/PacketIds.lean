import MqttBroker.Client.Resend
import MqttBroker.Client.Sending

/-!
# Packet ids of outbound messages

The ids of a connection's messages in flight come from its own counter, which
starts at 0 for each connection and wraps after 65535 ids, and from the queue
of its session.  Two messages in flight can share an id only if two of these
meet.
-/

namespace MqttBroker

/-! ## Ids and their sources -/

/-- The `k`-th id, from 0, of a connection's counter. -/
def counterId (k : ℕ) : UInt16 := UInt16.ofNat (k % 65535 + 1)

/-- `next_packet_id` after `k` ids. -/
def counterAt : ℕ → UInt16
  | 0 => 0
  | k + 1 => counterId k

theorem counterId_toNat (k : ℕ) : (counterId k).toNat = k % 65535 + 1 := by
  have hlt : k % 65535 < 65535 := Nat.mod_lt _ (by decide)
  rw [counterId, UInt16.toNat_ofNat']
  exact Nat.mod_eq_of_lt (by omega)

theorem counterId_ne_zero (k : ℕ) : counterId k ≠ 0 := by
  intro h
  have := congrArg UInt16.toNat h
  rw [counterId_toNat] at this
  simp at this

theorem advancePacketId_counterAt (k : ℕ) :
    Client.advancePacketId (counterAt k) = counterId k := by
  cases k with
  | zero => rfl
  | succ k =>
      have hlt : k % 65535 < 65535 := Nat.mod_lt _ (by decide)
      have hk := counterId_toNat k
      have hsucc : (counterId k + 1).toNat = (k % 65535 + 2) % 65536 := by
        rw [UInt16.toNat_add, hk]
        rfl
      unfold Client.advancePacketId counterAt
      apply UInt16.toNat_inj.mp
      rw [counterId_toNat]
      split_ifs with h0
      · have hz := congrArg UInt16.toNat h0
        rw [hsucc] at hz
        rw [h0]
        simp only [UInt16.toNat_zero] at hz
        have hwrap : (k + 1) % 65535 = 0 := by omega
        rw [hwrap]
        rfl
      · have hz : (counterId k + 1).toNat ≠ 0 := fun hz ↦ h0 (UInt16.toNat_inj.mp hz)
        rw [hsucc] at hz ⊢
        omega

def IdSource.packetId : IdSource → UInt16
  | counter k => counterId k
  | session id => id

/-- The recorded ids are the counter's, and each entry in use has the id of its source. -/
structure Sender.Numbered (s : Sender) : Prop where
  next : s.client.nextPacketId = counterAt s.given.length
  given : ∀ (k : ℕ) (id : UInt16), s.given[k]? = some id → id = counterId k
  source : ∀ i, (s.client.inflight i).inUse = true →
    (s.client.inflight i).packetId = (s.source i).packetId

/-- No two entries in use carry the same packet id. -/
def Client.IdsDistinct (c : Client) : Prop :=
  ∀ i j, (c.inflight i).inUse = true → (c.inflight j).inUse = true →
    (c.inflight i).packetId = (c.inflight j).packetId → i = j

namespace SendRecord

end SendRecord

section

variable {e : SendEvent} {s s' : Sender}

theorem Sender.Numbered.packetId (hs : s.Numbered) {source : IdSource} {pub : MqttPublish}
    {buf : Bytes} {now : ℤ} (h : SenderStep (.publish source pub buf now) s s') :
    pub.packetId = source.packetId := by
  cases h with
  | fanOut _ hgiven => exact hs.given _ _ hgiven
  | drain => rfl

theorem Sender.Numbered.step (hs : s.Numbered) (h : SenderStep e s s') : s'.Numbered where
  next := by
    rcases h.counter with rfl | ⟨hnext, hgiven⟩
    · rw [take, List.length_append]
      exact (congrArg Client.advancePacketId hs.next).trans (advancePacketId_counterAt _)
    · rw [hnext, hgiven, hs.next]
  given k id hk := by
    rcases h.counter with rfl | ⟨-, hgiven⟩
    · rcases lt_or_ge k s.given.length with hlt | hge
      · exact hs.given k id (by rwa [take, List.getElem?_append_left hlt] at hk)
      · have hlast : k = s.given.length ∧ Client.advancePacketId s.client.nextPacketId = id := by
          rw [take, List.getElem?_append_right hge] at hk
          obtain ⟨hlt, hid⟩ := List.getElem?_eq_some_iff.mp hk
          have hzero : k - s.given.length = 0 := by simpa using hlt
          exact ⟨by omega, by simpa [hzero] using hid⟩
        rw [← hlast.2, hs.next, advancePacketId_counterAt, hlast.1]
    · exact hs.given k id (hgiven ▸ hk)
  source i hi := by
    rcases h.entry hi with ⟨source, pub, buf, now, rfl, -, hentry, hsource⟩ | ⟨hkept, hsource⟩
    · rw [hentry, hsource]
      exact hs.packetId h
    · rw [hkept.packetId, hsource]
      exact hs.source i (hkept.inUse ▸ hi)

/-- Ids stay distinct if a new one is not in use. -/
theorem Client.IdsDistinct.step (hd : s.client.IdsDistinct) (h : SenderStep e s s')
    (hnew : ∀ source pub buf now, e = .publish source pub buf now →
      ∀ i, (s.client.inflight i).inUse = true →
        (s.client.inflight i).packetId ≠ pub.packetId) : s'.client.IdsDistinct := by
  intro i j hi hj hij
  rcases h.entry hi with ⟨source, pub, buf, now, he, hfree, hei, -⟩ | ⟨hki, -⟩ <;>
    rcases h.entry hj with ⟨source', pub', buf', now', he', hfree', hej, -⟩ | ⟨hkj, -⟩
  · exact Option.some.inj (hfree.symm.trans hfree')
  · refine absurd ?_ (hnew source pub buf now he j (hkj.inUse ▸ hj))
    rw [← hkj.packetId, ← hij, hei]
  · refine absurd ?_ (hnew source' pub' buf' now' he' i (hki.inUse ▸ hi))
    rw [← hki.packetId, hij, hej]
  · exact hd i j (hki.inUse ▸ hi) (hkj.inUse ▸ hj) (by rw [← hki.packetId, ← hkj.packetId, hij])

end

theorem SenderRun.steps {hist : List SendRecord} {s s' : Sender} (hrun : SenderRun hist s)
    (hsteps : s.Steps s') : ∃ hist, SenderRun hist s' := by
  induction hsteps with
  | refl => exact ⟨hist, hrun⟩
  | tail _ hstep ih =>
      obtain ⟨hist', hrun'⟩ := ih
      obtain ⟨e, hstep⟩ := hstep
      exact ⟨_, hrun'.step hstep⟩

namespace Sample

/-- The broker after the client came back on slot 1. -/
def back : Broker Config.posix ℕ :=
  (handleConnect env (clientAlloc (freed 1) 1 6) 1 connectPkt).broker

theorem publish_isSome : (topicPublishInternal env back (message 1) false).isSome = true := by
  decide

/-- The broker after one more message to it. -/
def again : Broker Config.posix ℕ :=
  ((topicPublishInternal env back (message 1) false).get publish_isSome).broker

end Sample

end MqttBroker
