import MqttBroker.Client.Dispatch

/-!
# The table of messages in flight

What an acknowledgement, a retry or a newly sent message makes of the table in
which a connection keeps its outbound QoS 1 and QoS 2 messages.
-/

namespace MqttBroker

/-! ## Tables and events -/

/-- A table of outbound messages in flight, of a client or a mesh-ingress client. -/
abbrev InflightTable (n : ℕ) := Fin n → Inflight

/-- What happens to the messages in flight of a connection. -/
inductive AckEvent where
  | puback (id : UInt16)
  | pubrec (id : UInt16)
  | pubcomp (id : UInt16)
  /-- the retransmission of what has waited too long -/
  | retry
  /-- a message that was just sent is stored -/
  | store
  deriving DecidableEq

/-- The event that a received packet is. -/
def ackEvent (pkt : MqttPacket) : Option AckEvent :=
  if pkt.type = PacketType.puback then some (.puback pkt.packetId)
  else if pkt.type = PacketType.pubrec then some (.pubrec pkt.packetId)
  else if pkt.type = PacketType.pubcomp then some (.pubcomp pkt.packetId)
  else none

namespace InflightTable

variable {n : ℕ}

/-- The entry that a PUBACK or a PUBCOMP with this id releases. -/
def acked (T : InflightTable n) (id : UInt16) : Option (Fin n) :=
  (List.finRange n).find? fun i ↦ (T i).inUse && (T i).packetId = id

def release (T : InflightTable n) (id : UInt16) : InflightTable n :=
  match T.acked id with
  | some i => Function.update T i { T i with inUse := false }
  | none => T

theorem release_apply (T : InflightTable n) (id : UInt16) (i : Fin n) :
    T.release id i = if T.acked id = some i then { T i with inUse := false } else T i := by
  unfold release
  cases T.acked id with
  | none => simp
  | some j =>
      by_cases hij : i = j
      · subst hij
        simp
      · simp [hij, Ne.symm hij]

theorem acked_some {T : InflightTable n} {id : UInt16} {i : Fin n} (h : T.acked id = some i) :
    (T i).inUse = true ∧ (T i).packetId = id := by
  simpa using List.find?_some h

end InflightTable

/-- The entry stays in use, for the same message. -/
structure Inflight.Kept (e e' : Inflight) : Prop where
  inUse : e'.inUse = e.inUse
  packetId : e'.packetId = e.packetId
  qos : e'.qos = e.qos

/-- What an event makes of a table. -/
inductive TableStep {n : ℕ} : AckEvent → InflightTable n → InflightTable n → Prop where
  | puback (T : InflightTable n) (id : UInt16) : TableStep (.puback id) T (T.release id)
  | pubcomp (T : InflightTable n) (id : UInt16) : TableStep (.pubcomp id) T (T.release id)
  | pubrecNone (T : InflightTable n) (id : UInt16) : TableStep (.pubrec id) T T
  | pubrec (T : InflightTable n) {i : Fin n} {e : Inflight} (huse : (T i).inUse = true)
      (hkept : (T i).Kept e) : TableStep (.pubrec (T i).packetId) T (Function.update T i e)
  | retry {T T' : InflightTable n} (hkept : ∀ i, (T i).Kept (T' i))
      (hwait : ∀ i, (T' i).waitingPubcomp = (T i).waitingPubcomp) : TableStep .retry T T'
  | storeNone (T : InflightTable n) : TableStep .store T T
  | store (T : InflightTable n) {i : Fin n} {e : Inflight} (hfree : (T i).inUse = false)
      (huse : e.inUse = true) (hwait : e.waitingPubcomp = false) :
      TableStep .store T (Function.update T i e)

/-! ## What one event can do -/

namespace TableStep

variable {n : ℕ} {e : AckEvent} {T T' : InflightTable n}

/-- An entry in use after an event was stored by it or is an old one, which a
PUBREC with its id may have moved on. -/
theorem entry (h : TableStep e T T') {i : Fin n} (hi : (T' i).inUse = true) :
    (e = .store ∧ (T i).inUse = false ∧ (T' i).waitingPubcomp = false) ∨
      ((T i).Kept (T' i) ∧ ((T' i).waitingPubcomp = (T i).waitingPubcomp ∨
        e = .pubrec (T' i).packetId)) := by
  have hrefl : ∀ x : Inflight, x.Kept x := fun x ↦ ⟨rfl, rfl, rfl⟩
  have hrelease : ∀ id, (T.release id i).inUse = true → T.release id i = T i := by
    intro id hi
    rw [InflightTable.release_apply] at hi ⊢
    split_ifs at hi ⊢
    rfl
  cases h with
  | puback _ id =>
      rw [hrelease id hi]
      exact Or.inr ⟨hrefl _, Or.inl rfl⟩
  | pubcomp _ id =>
      rw [hrelease id hi]
      exact Or.inr ⟨hrefl _, Or.inl rfl⟩
  | pubrecNone => exact Or.inr ⟨hrefl _, Or.inl rfl⟩
  | @pubrec _ j x huse hkept =>
      by_cases hij : i = j
      · subst hij
        simp only [Function.update_self]
        exact Or.inr ⟨hkept, Or.inr (by rw [hkept.packetId])⟩
      · simp only [Function.update_of_ne hij]
        exact Or.inr ⟨hrefl _, Or.inl trivial⟩
  | retry hkept hwait => exact Or.inr ⟨hkept i, Or.inl (hwait i)⟩
  | storeNone => exact Or.inr ⟨hrefl _, Or.inl rfl⟩
  | @store _ j x hfree huse hwait =>
      by_cases hij : i = j
      · subst hij
        exact Or.inl ⟨rfl, hfree, by simpa using hwait⟩
      · simp only [Function.update_of_ne hij]
        exact Or.inr ⟨hrefl _, Or.inl trivial⟩

/-- Only a PUBACK or a PUBCOMP releases an entry: the first one with its id. -/
theorem released (h : TableStep e T T') {i : Fin n} (hi : (T i).inUse = true)
    (hi' : (T' i).inUse = false) :
    ∃ id, (e = .puback id ∨ e = .pubcomp id) ∧ T.acked id = some i := by
  have hrelease : ∀ id, (T.release id i).inUse = false → T.acked id = some i := by
    intro id hfree
    rw [InflightTable.release_apply] at hfree
    by_contra hno
    simp [hno, hi] at hfree
  have hkeep : ∀ {j : Fin n} {x : Inflight}, x.inUse = true →
      (Function.update T j x i).inUse = true := by
    intro j x hx
    by_cases hij : i = j
    · subst hij
      simpa using hx
    · simpa [hij] using hi
  cases h with
  | puback _ id => exact ⟨id, Or.inl rfl, hrelease id hi'⟩
  | pubcomp _ id => exact ⟨id, Or.inr rfl, hrelease id hi'⟩
  | pubrecNone => simp [hi] at hi'
  | pubrec _ huse hkept => simp [hkeep (hkept.inUse.trans huse)] at hi'
  | retry hkept => simp [(hkept i).inUse, hi] at hi'
  | storeNone => simp [hi] at hi'
  | store _ _ huse => simp [hkeep huse] at hi'

theorem releases_acked (h : TableStep e T T') {id : UInt16} (he : e = .puback id ∨ e = .pubcomp id)
    {i : Fin n} (hi : T.acked id = some i) : (T' i).inUse = false := by
  have hfree : (T.release id i).inUse = false := by
    simp [InflightTable.release_apply, hi]
  rcases he with rfl | rfl <;> cases h <;> exact hfree

end TableStep

/-! ## The table of a client -/

theorem retryEntry_kept (now : ℤ) (e : Inflight) :
    e.Kept (Client.retryEntry now e).1 ∧
      (Client.retryEntry now e).1.waitingPubcomp = e.waitingPubcomp := by
  unfold Client.retryEntry
  split_ifs <;> exact ⟨⟨rfl, rfl, rfl⟩, rfl⟩

theorem Client.inflightAck_inflight (c : Client) (id : UInt16) :
    (c.inflightAck id).inflight = InflightTable.release c.inflight id := by
  unfold inflightAck InflightTable.release InflightTable.acked
  generalize List.find? _ _ = found
  cases found <;> rfl

theorem Client.pubrec_tableStep (c : Client) (id : UInt16) (now : ℤ) (sendOk : Bool) :
    TableStep (.pubrec id) c.inflight (c.pubrec id now sendOk).1.inflight := by
  unfold pubrec
  split
  · exact .pubrecNone _ id
  · rename_i i hi
    have hi := List.find?_some hi
    simp only [Bool.and_eq_true, decide_eq_true_eq] at hi
    obtain ⟨⟨⟨huse, rfl⟩, -⟩, -⟩ := hi
    split
    · exact .pubrecNone _ _
    · have hsend : (c.clientSend sendOk).inflight = c.inflight := by
        unfold clientSend
        split_ifs <;> rfl
      dsimp only
      rw [hsend]
      exact .pubrec _ huse ⟨rfl, rfl, rfl⟩

theorem Client.inflightRetry_inflight (c : Client) (now : ℤ) (sendOk : Bool) :
    (c.inflightRetry now sendOk).1.inflight = fun i ↦ (retryEntry now (c.inflight i)).1 := by
  unfold inflightRetry clientSend
  dsimp only
  split_ifs <;> rfl

theorem Client.inflightRetry_tableStep (c : Client) (now : ℤ) (sendOk : Bool) :
    TableStep .retry c.inflight (c.inflightRetry now sendOk).1.inflight := by
  rw [inflightRetry_inflight]
  exact .retry (fun i ↦ (retryEntry_kept now _).1) fun i ↦ (retryEntry_kept now _).2

theorem Client.inflightStore_tableStep (c : Client) (id : UInt16) (buf : Bytes) (qos : UInt8)
    (now : ℤ) : TableStep .store c.inflight (c.inflightStore id buf qos now).inflight := by
  unfold inflightStore
  split
  · rename_i i hi
    exact .store _ (by simpa using List.find?_some hi) rfl rfl
  · exact .storeNone _

end MqttBroker
