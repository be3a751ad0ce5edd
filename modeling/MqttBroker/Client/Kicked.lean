import MqttBroker.Client.Observed

/-!
# Who is disconnected by a CONNECT

`client_takeover` compares the new client id with the `client_id` of every slot
that is CONNECTED.  The field is empty until `handle_connect` has written it, and
stays empty for a client without an id, so a CONNECT with the empty id matches
them all.
-/

namespace MqttBroker

variable {cfg : Config} {κ σ : Type}

/-- A client id in `client_t` is that of the connection's accepted CONNECT. -/
structure IdInv (c : Client) (pc : ConnPc cfg) (l : ConnLog) : Prop where
  named : c.clientId ≠ [] → ∃ conn, l.accepted = some conn ∧ conn.clientId = c.clientId
  short : c.clientId.length < MQTT_CLIENT_ID_MAX
  fresh : pc = .waiting → c.clientId = []
  entering : ∀ conn, pc = .takeover conn ∨ pc = .assignId conn →
    l.accepted = some conn ∧ conn.clientId.length < MQTT_CLIENT_ID_MAX

namespace IdInv

variable {c c' : Client} {pc pc' : ConnPc cfg} {l l' : ConnLog}

/-- The id stays, and the thread is past `client_takeover`. -/
theorem goOn (h : IdInv c pc l) (hc : c'.clientId = c.clientId) (hl : l'.accepted = l.accepted)
    (hpc : pc' ≠ .waiting ∧ ∀ conn, pc' ≠ .takeover conn ∧ pc' ≠ .assignId conn) :
    IdInv c' pc' l' where
  named := by
    rw [hc, hl]
    exact h.named
  short := by
    rw [hc]
    exact h.short
  fresh hw := absurd hw hpc.1
  entering conn hentering := (hentering.elim (hpc.2 conn).1 (hpc.2 conn).2).elim

/-- The connection ends with its first packet. -/
theorem refused (h : IdInv c pc l) (hwaiting : pc = .waiting) (hc : c'.clientId = c.clientId)
    (hpc : pc' ≠ .waiting ∧ ∀ conn, pc' ≠ .takeover conn ∧ pc' ≠ .assignId conn) :
    IdInv c' pc' l' where
  named hne := absurd (hc.trans (h.fresh hwaiting)) hne
  short := by
    rw [hc]
    exact h.short
  fresh hw := absurd hw hpc.1
  entering conn hentering := (hentering.elim (hpc.2 conn).1 (hpc.2 conn).2).elim

theorem connStep [DecidableEq κ] {env : Env κ} {b : Broker cfg κ} {me : κ} {h' : Handled cfg κ}
    (h : IdInv (b.clients me) pc l) (hnext : connStep env b me pc = some (h', pc')) :
    IdInv (h'.broker.clients me) pc' l := by
  have hself : ∀ f : Client → Client, (b.updateClient me f).clients me = f (b.clients me) :=
    fun _ ↦ Function.update_self _ _ _
  by_cases htake : ∃ conn, pc = .takeover conn
  · obtain ⟨conn, rfl⟩ := htake
    cases hnext
    rw [clientTakeover_me]
    refine ⟨h.named, h.short, fun hw ↦ (nomatch hw), fun conn' hentering ↦ ?_⟩
    rcases hentering with heq | heq <;> cases heq
    exact h.entering conn (Or.inl rfl)
  have hpc' : pc' ≠ .waiting ∧ ∀ conn, pc' ≠ .takeover conn ∧ pc' ≠ .assignId conn := by
    refine ⟨(connStep_pc_cases hnext).1, fun conn ↦ ?_⟩
    obtain ⟨hne, hassign⟩ := Threads.connStep_pc hnext conn
    exact ⟨hne, fun heq ↦ htake ⟨conn, hassign heq⟩⟩
  rcases connStep_stays hnext with hstays | ⟨conn, rfl, hc⟩ | ⟨conn, rfl, hc⟩ | ⟨rfl, hc⟩
  · exact h.goOn hstays.clientId rfl hpc'
  · obtain ⟨haccepted, hlen⟩ := h.entering conn (Or.inr rfl)
    have htaken : conn.clientId.take (MQTT_CLIENT_ID_MAX - 1) = conn.clientId :=
      List.take_of_length_le (by omega)
    have hid : (h'.broker.clients me).clientId = conn.clientId := by
      rw [hc, Client.assignId, htaken]
    refine ⟨fun _ ↦ ⟨conn, haccepted, hid.symm⟩, by rwa [hid], fun hw ↦ absurd hw hpc'.1,
      fun conn' hentering ↦ ?_⟩
    exact (hentering.elim (hpc'.2 conn').1 (hpc'.2 conn').2).elim
  · exact h.goOn (by rw [hc]; rfl) rfl hpc'
  · exact h.goOn (by rw [hc]) rfl hpc'

end IdInv

namespace Threads

variable [DecidableEq κ] [DecidableEq σ] {s s' : Threads cfg κ σ} {e : ThreadEvent κ σ}

/-- The step lemma, for the thread of slot `k`. -/
theorem idInv_own (h : s.step e = some s') {k : κ} (hk : e.slot = some k) {l : ConnLog}
    (hinv : IdInv (s.broker.clients k) (s.conn k) l) :
    IdInv (s'.broker.clients k) (s'.conn k) (l.note s k e) := by
  have hown := own_cases h hk
  generalize s'.broker.clients k = c, s'.conn k = pc at hown ⊢
  cases hown with
  | alloc fd =>
      refine ⟨fun hne ↦ absurd rfl hne, (by decide : 0 < MQTT_CLIENT_ID_MAX), fun _ ↦ rfl,
        fun conn hentering ↦ ?_⟩
      rcases hentering with heq | heq <;> cases heq
  | notConnect env pkt hpc => exact hinv.refused hpc rfl (by simp)
  | connect env pkt conn hpc htype hcheck =>
      refine ⟨fun hne ↦ absurd (hinv.fresh hpc) hne, hinv.short, fun hw ↦ (nomatch hw),
        fun conn' hentering ↦ ?_⟩
      rcases hentering with heq | heq <;> cases heq
      exact ⟨by simp [ConnLog.note, htype, hcheck, Except.toOption],
        (connectCheck_ok hcheck).clientId_lt⟩
  | reject env pkt code c hpc _ _ hstays => exact hinv.refused hpc hstays.clientId (by simp)
  | leave => exact hinv.goOn rfl rfl (by simp)
  | packet env pkt c pc hpc hstays hpc' =>
      refine hinv.goOn hstays.clientId rfl ?_
      rcases hpc' with rfl | rfl | ⟨pub, ack, rfl⟩ <;> simp
  | tick env c hpc hstays => exact hinv.goOn hstays.clientId rfl (by simp)
  | next env h' pc hnext => exact hinv.connStep hnext
  | publish env pub ack c hpc hstays =>
      have hnote : l.note s k (.publish k env) = l := by simp [ConnLog.note, hpc]
      exact hinv.goOn hstays.clientId (by rw [hnote]) (by simp)
  | will env c hpc hwill hstays =>
      refine hinv.goOn hstays.clientId ?_ (by simp)
      simp only [ConnLog.note, hpc]

theorem idInv_observed [Inhabited κ] {C : Threads cfg κ σ → (κ → ConnLog) → ThreadEvent κ σ → Prop}
    {logs : κ → ConnLog} (h : Observed C s logs) (k : κ) :
    IdInv (s.broker.clients k) (s.conn k) (logs k) := by
  refine Observer.Reach.invariant (I := fun (s : Threads cfg κ σ) (logs : κ → ConnLog) ↦
    ∀ k, IdInv (s.broker.clients k) (s.conn k) (logs k)) (fun k ↦ ?_) ?_ h k
  · refine ⟨fun hne ↦ absurd rfl hne, (by decide : 0 < MQTT_CLIENT_ID_MAX), fun _ ↦ rfl,
      fun conn hentering ↦ ?_⟩
    rcases hentering with heq | heq <;> cases heq
  intro s logs e s' _ hs _ hstep k
  by_cases hk : e.slot = some k
  · rw [note_self hk]
    exact idInv_own hstep hk (hs k)
  · obtain ⟨hclient, hconn, -⟩ := step_untouched hstep hk
    rw [note_of_ne hk, hconn]
    have hsame := hclient.clientId
    refine ⟨?_, ?_, fun hw ↦ hsame.trans ((hs k).fresh hw), (hs k).entering⟩ <;> rw [hsame]
    · exact (hs k).named
    · exact (hs k).short

/-- Every connection that the step disconnects was accepted with this client id. -/
def KicksHolders (s s' : Threads cfg κ σ) (logs : κ → ConnLog) (id : CStr) : Prop :=
  ∀ j, (s.broker.clients j).state = .connected → (s'.broker.clients j).state ≠ .connected →
    id ≠ [] ∧ ∃ conn, (logs j).accepted = some conn ∧ conn.clientId = id

/-- `client_takeover` disconnects only connections that were accepted with the same
non-empty client id if and only if that of the CONNECT is not empty, or every
other connection that is up has its client id already, and a non-empty one. -/
theorem takeover_kicks_iff [Inhabited κ] {logs : κ → ConnLog}
    (h : Observed (fun _ _ _ ↦ True) s logs) {k : κ} {env : Env κ} {conn : MqttConnect}
    (hpc : s.conn k = .takeover conn) (hstep : s.step (.next k env) = some s') :
    s.KicksHolders s' logs conn.clientId ↔
      (conn.clientId = [] → ∀ j, j ≠ k → (s.broker.clients j).state = .connected →
        (s.broker.clients j).clientId ≠ []) := by
  have hlen := ((idInv_observed h k).entering conn (Or.inl hpc)).2
  have hshort : conn.clientId.take MQTT_CLIENT_ID_MAX = conn.clientId :=
    List.take_of_length_le hlen.le
  have hafter : s'.broker = clientTakeover s.broker k conn.clientId := by
    cases step_cases hstep with
    | next _ _ h' pc hjob hnext =>
        rw [hpc] at hnext
        cases hnext
        rfl
  have hkicked : ∀ j, (s.broker.clients j).state = .connected →
      ((s'.broker.clients j).state ≠ .connected ↔ j ≠ k ∧
        (s.broker.clients j).clientId.take MQTT_CLIENT_ID_MAX = conn.clientId) := by
    intro j hup
    rw [hafter, clientTakeover, hshort]
    dsimp only
    split_ifs with hkick
    · exact iff_of_true (by simp) ⟨hkick.1, hkick.2.2⟩
    · exact iff_of_false (fun hdown ↦ hdown hup) fun hj ↦ hkick ⟨hj.1, hup, hj.2⟩
  constructor
  · intro hkicks hempty j hj hup hid
    refine (hkicks j hup ((hkicked j hup).mpr ⟨hj, ?_⟩)).1 hempty
    simp [hid, hempty]
  · intro hnone j hup hdown
    obtain ⟨hj, hsame⟩ := (hkicked j hup).mp hdown
    have hid : (s.broker.clients j).clientId ≠ [] := by
      intro hid
      rw [hid, List.take_nil] at hsame
      exact hnone hsame.symm j hj hup hid
    have hinv := idInv_observed h j
    rw [List.take_of_length_le hinv.short.le] at hsame
    obtain ⟨conn', haccepted, hconn'⟩ := hinv.named hid
    exact ⟨hsame ▸ hid, conn', haccepted, hconn'.trans hsame⟩

end Threads

namespace Sample

/-- CONNECT with an empty client id and clean session. -/
def namelessPkt : MqttPacket :=
  ⟨PacketType.connect, 12, [0, 4, 0x4D, 0x51, 0x54, 0x54, 4, 2, 0, 60, 0, 0]⟩

def namelessConn : MqttConnect := { conn with clientId := [], cleanSession := true }

/-- A client with the packet `pkt` is about to take its client id over from the one
in the first slot. -/
def scanEnd (first : List (ThreadEvent ℕ Unit)) (pkt : MqttPacket) :
    Option (Threads Config.posix ℕ Unit × (ℕ → ConnLog)) :=
  Observer.run (Threads.observed Config.posix ℕ Unit) (Threads.init Config.posix ℕ Unit, fun _ ↦ {})
    (.alloc 0 5 :: first ++ [.alloc 1 6, .connect 1 env pkt])

/-- The first client has been accepted with the id `a`. -/
def holderRun : List (ThreadEvent ℕ Unit) :=
  .connect 0 env connectPkt :: List.replicate 6 (.next 0 env)

theorem scanEnd_isSome : (scanEnd holderRun connectPkt).isSome = true ∧
    (scanEnd [] namelessPkt).isSome = true := by decide

theorem scanEnd_observed {first : List (ThreadEvent ℕ Unit)} {pkt : MqttPacket}
    {s : Threads Config.posix ℕ Unit} {logs : ℕ → ConnLog}
    (h : scanEnd first pkt = some (s, logs)) : Threads.Observed (fun _ _ _ ↦ True) s logs :=
  Observer.Reach.start.run (fun _ _ _ _ ↦ trivial) h

end Sample

/-- The statement at a CONNECT with the id of another connection. -/
theorem takeover_kicks_iff_holder : ∃ (s s' : Threads Config.posix ℕ Unit) (logs : ℕ → ConnLog),
    s.conn 1 = .takeover Sample.conn ∧ s.step (.next 1 Sample.env) = some s' ∧
      s.KicksHolders s' logs [0x61] ∧ (s'.broker.clients 0).state = .disconnecting := by
  obtain ⟨r, hrun⟩ := Option.isSome_iff_exists.mp Sample.scanEnd_isSome.1
  have hreach := Sample.scanEnd_observed hrun
  have hpc : (Sample.scanEnd Sample.holderRun Sample.connectPkt).map (·.1.conn 1) =
    some (.takeover Sample.conn) := rfl
  have hkicked : (Sample.scanEnd Sample.holderRun Sample.connectPkt).bind (fun r ↦
      (r.1.step (.next 1 Sample.env)).map fun s ↦ (s.broker.clients 0).state) =
        some .disconnecting := rfl
  rw [hrun, Option.map_some, Option.some.injEq] at hpc
  rw [hrun, Option.bind_some] at hkicked
  obtain ⟨s', hstep, hstate⟩ := Option.map_eq_some_iff.mp hkicked
  exact ⟨r.1, s', r.2, hpc, hstep,
    (Threads.takeover_kicks_iff hreach hpc hstep).mpr fun hempty ↦ absurd hempty (by decide), hstate⟩

/-- A client that has sent nothing yet is disconnected by the CONNECT of another one
that has no client id. -/
theorem takeover_kicks_silent : ∃ (s s' : Threads Config.posix ℕ Unit) (logs : ℕ → ConnLog),
    Threads.Observed (fun _ _ _ ↦ True) s logs ∧ s.conn 1 = .takeover Sample.namelessConn ∧
      s.step (.next 1 Sample.env) = some s' ∧ s.conn 0 = .waiting ∧
      (s.broker.clients 0).state = .connected ∧ (s'.broker.clients 0).state = .disconnecting ∧
      ¬ s.KicksHolders s' logs [] := by
  have hrun := (Option.some_get Sample.scanEnd_isSome.2).symm
  refine ⟨_, _, _, Sample.scanEnd_observed hrun, rfl, rfl, rfl, rfl, rfl, fun hkicks ↦ ?_⟩
  exact (hkicks 0 rfl (by decide)).1 rfl

end MqttBroker
