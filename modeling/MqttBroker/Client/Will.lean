import MqttBroker.Client.Observed

/-!
# The Will message of a connection

`client_free` passes the Will of an accepted CONNECT to `topic_publish` once,
on every way out of `client_thread_fn` but that of a DISCONNECT.
-/

namespace MqttBroker

variable {cfg : Config} {κ σ : Type}

/-- The Will message that a CONNECT carries. -/
def MqttConnect.willMessage (conn : MqttConnect) : Option MqttPublish :=
  if conn.hasWill then
    some ⟨conn.willTopic, conn.willPayload, conn.willQos, conn.willRetain, 0, 0⟩
  else none

/-- The Will messages that are to be published when the connection ends. -/
def ConnLog.dueWill (l : ConnLog) : List MqttPublish :=
  if l.disconnected then [] else (l.accepted.bind MqttConnect.willMessage).toList

namespace ConnPc

/-- The thread stands before the assignments to `c->has_will` and `c->will`;
with the CONNECT whose Will they will take. -/
def beforeWill : ConnPc cfg → Option (Option MqttConnect)
  | .waiting => some none
  | .takeover conn | .assignId conn | .assignRest conn => some (some conn)
  | _ => none

/-- The thread stands after the test of `c->has_will` in `client_free`. -/
def AfterWill : ConnPc cfg → Prop
  | .clearWill | .collect | .lookup _ | .saveSubs _ _ | .saveInflight _ _ | .unsubscribe | .delete |
    .release | .idle => True
  | _ => False

end ConnPc

/-- Once past the test, a thread does not come back to it. -/
theorem connStep_afterWill [DecidableEq κ] {env : Env κ} {b : Broker cfg κ} {me : κ}
    {pc pc' : ConnPc cfg} {h : Handled cfg κ} (hpc : pc.AfterWill)
    (hnext : connStep env b me pc = some (h, pc')) : pc'.AfterWill := by
  cases pc with
  | clearWill | saveSubs | delete | release =>
      cases hnext
      trivial
  | collect =>
      cases hnext
      split_ifs <;> trivial
  | lookup subs =>
      cases hnext
      split <;> trivial
  | saveInflight i n =>
      simp only [connStep] at hnext
      split at hnext <;> cases hnext <;> trivial
  | unsubscribe =>
      obtain ⟨r, -, heq⟩ := Option.map_eq_some_iff.mp hnext
      cases heq
      split_ifs <;> trivial
  | idle => cases hnext
  | _ => exact absurd hpc id

/-- Past the assignments a thread goes on to the test, and behind it if there is no
Will. -/
theorem connStep_during [DecidableEq κ] {env : Env κ} {b : Broker cfg κ} {me : κ}
    {pc pc' : ConnPc cfg} {h : Handled cfg κ} (hpc : pc.beforeWill = none) (hafter : ¬ pc.AfterWill)
    (hnext : connStep env b me pc = some (h, pc')) :
    (pc'.beforeWill = none ∧ ¬ pc'.AfterWill) ∨ pc'.AfterWill ∧ (b.clients me).hasWill = false := by
  cases pc with
  | openSession | online | drain | reply | closeFd => cases hnext; exact Or.inl ⟨rfl, id⟩
  | connack sess present =>
      cases hnext
      rcases sess with - | i <;> cases present <;> exact Or.inl ⟨rfl, id⟩
  | restore i n =>
      simp only [connStep] at hnext
      split at hnext <;> cases hnext <;> exact Or.inl ⟨rfl, id⟩
  | loop =>
      cases hnext
      split_ifs <;> exact Or.inl ⟨rfl, id⟩
  | will =>
      simp only [connStep] at hnext
      split_ifs at hnext with hwill
      cases hnext
      exact Or.inr ⟨trivial, by simpa using hwill⟩
  | recv | publish => cases hnext
  | waiting | takeover | assignId | assignRest => cases hpc
  | _ => exact absurd trivial hafter

/-- What the fields of a connection, where its thread stands and the notes about
it have to do with each other. -/
inductive WillInv (c : Client) (pc : ConnPc cfg) (l : ConnLog) : Prop where
  | before (hpc : pc.beforeWill = some l.accepted) (hnone : c.hasWill = false)
      (hempty : c.will = default) (hwills : l.wills = []) (hdisc : l.disconnected = false)
      (htopic : ∀ conn, l.accepted = some conn → conn.willTopic.length < MQTT_TOPIC_MAX)
  | during (hpc : pc.beforeWill = none) (hafter : ¬ pc.AfterWill) (hwills : l.wills = [])
      (hdue : l.dueWill = if c.hasWill then [c.will] else [])
  | after (hpc : pc.AfterWill) (hwills : l.wills = l.dueWill)

namespace WillInv

variable {c c' : Client} {pc pc' : ConnPc cfg} {l : ConnLog}

theorem congr (h : WillInv c pc l) (hhas : c'.hasWill = c.hasWill) (hwill : c'.will = c.will) :
    WillInv c' pc l := by
  cases h with
  | before hpc hnone hempty hwills hdisc htopic =>
      exact .before hpc (hhas.trans hnone) (hwill.trans hempty) hwills hdisc htopic
  | during hpc hafter hwills hdue =>
      exact .during hpc hafter hwills (by rw [hdue, hhas, hwill])
  | after hpc hwills => exact .after hpc hwills

theorem stays (h : WillInv c pc l) (hc : c.Stays c') : WillInv c' pc l :=
  h.congr hc.hasWill hc.will

/-- The thread goes on between the assignments and the test. -/
theorem goOn (h : WillInv c pc l) (hpc : pc.beforeWill = none) (hafter : ¬ pc.AfterWill)
    (hc : c.Stays c') (hpc' : pc'.beforeWill = none) (hafter' : ¬ pc'.AfterWill) :
    WillInv c' pc' l := by
  cases h.stays hc with
  | before hpc₁ => exact nomatch hpc.symm.trans hpc₁
  | during _ _ hwills hdue => exact .during hpc' hafter' hwills hdue
  | after hpc₁ => exact absurd hpc₁ hafter

/-- A packet was received, and a handled DISCONNECT drops the Will. -/
theorem seen [DecidableEq κ] {s : Threads cfg κ σ} {k : κ} {env : Env κ} {pkt : MqttPacket}
    (h : WillInv c (s.conn k) l) (hpc : s.conn k = .recv)
    (hhas : c'.hasWill = (c.hasWill && !(pkt.headerOk && pkt.type = PacketType.disconnect &&
      (s.broker.clients k).state = .connected))) (hwill : c'.will = c.will)
    (hpc' : pc'.beforeWill = none) (hafter' : ¬ pc'.AfterWill) :
    WillInv c' pc' (l.note s k (.packet k env pkt)) := by
  rw [hpc] at h
  cases h with
  | before hpc => cases hpc
  | during _ _ hwills hdue =>
      refine .during hpc' hafter' hwills ?_
      cases hdisc : (pkt.headerOk && pkt.type = PacketType.disconnect &&
          (s.broker.clients k).state = .connected : Bool) with
      | true => simp [ConnLog.dueWill, ConnLog.note, hdisc, hhas]
      | false =>
          simp only [ConnLog.dueWill, ConnLog.note, hdisc, Bool.or_false, hhas, Bool.not_false,
            Bool.and_true, hwill]
          exact hdue
  | after hpc => cases hpc

/-- A connection that ends without an accepted CONNECT has no Will. -/
theorem refused (h : WillInv c pc l) (hpc : pc = .waiting) (hc : c.Stays c') {l' : ConnLog}
    (haccepted : l.accepted = none → l'.accepted = none) (hwills : l'.wills = l.wills)
    (hdisc : l'.disconnected = l.disconnected)
    (hpc' : pc'.beforeWill = none) (hafter' : ¬ pc'.AfterWill) : WillInv c' pc' l' := by
  subst hpc
  cases h.stays hc with
  | before hpc hnone _ hw hd =>
      refine .during hpc' hafter' (hwills.trans hw) ?_
      simp [ConnLog.dueWill, hdisc, hd, haccepted (Option.some.inj hpc).symm, hnone]
  | during hpc => cases hpc
  | after hpc => cases hpc

/-- The assignments to `c->has_will` and `c->will`. -/
theorem assignRest {conn : MqttConnect} (h : WillInv c (.assignRest conn : ConnPc cfg) l) :
    WillInv (c.assignRest conn) (.openSession conn : ConnPc cfg) l := by
  cases h with
  | before hpc hnone hempty hwills hdisc htopic =>
      refine .during rfl id hwills ?_
      have haccepted : l.accepted = some conn := (Option.some.inj hpc).symm
      have hlen := htopic conn haccepted
      have htake : conn.willTopic.take (MQTT_TOPIC_MAX - 1) = conn.willTopic :=
        List.take_of_length_le (by omega)
      simp only [ConnLog.dueWill, hdisc, haccepted, MqttConnect.willMessage, Client.assignRest,
        Client.connectFields, hempty, htake, Option.bind_some]
      cases conn.hasWill <;> rfl
  | during hpc => cases hpc
  | after hpc => cases hpc

/-- One step of a thread in `handle_connect` or `client_free`. -/
theorem connStep [DecidableEq κ] {env : Env κ} {b : Broker cfg κ} {me : κ} {h' : Handled cfg κ}
    (h : WillInv (b.clients me) pc l) (hnext : connStep env b me pc = some (h', pc')) :
    WillInv (h'.broker.clients me) pc' l := by
  have hself : ∀ f : Client → Client, (b.updateClient me f).clients me = f (b.clients me) :=
    fun _ ↦ Function.update_self _ _ _
  cases h with
  | before hpc hnone hempty hwills hdisc htopic =>
      cases pc with
      | takeover conn =>
          cases hnext
          rw [clientTakeover_me]
          exact .before hpc hnone hempty hwills hdisc htopic
      | assignId conn =>
          cases hnext
          rw [hself]
          exact .before hpc hnone hempty hwills hdisc htopic
      | assignRest conn =>
          cases hnext
          rw [hself]
          exact (WillInv.before hpc hnone hempty hwills hdisc htopic).assignRest
      | waiting => cases hnext
      | _ => cases hpc
  | during hpc hafter hwills hdue =>
      rcases connStep_stays hnext with hstays | ⟨conn, rfl, -⟩ | ⟨conn, rfl, -⟩ | ⟨rfl, -⟩
      · rcases connStep_during hpc hafter hnext with ⟨hpc', hafter'⟩ | ⟨hpc', hwill⟩
        · exact .during hpc' hafter' hwills (by rw [hdue, hstays.hasWill, hstays.will])
        · rw [hwill] at hdue
          exact .after hpc' (hwills.trans hdue.symm)
      · cases hpc
      · cases hpc
      · exact absurd trivial hafter
  | after hpc hwills => exact .after (connStep_afterWill hpc hnext) hwills

end WillInv

/-! ## Along a run -/

namespace Threads

variable [DecidableEq κ] [DecidableEq σ] {s s' : Threads cfg κ σ} {e : ThreadEvent κ σ}

end Threads

namespace Sample

end Sample

end MqttBroker
