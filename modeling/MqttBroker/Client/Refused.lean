import MqttBroker.Client.Reuse
import MqttBroker.Client.Sequential

/-!
# Connections that are not accepted

`client_free` treats a connection that has not got through `handle_connect` like
a client without clean session and with an empty id, since `client_alloc` has
zeroed both fields.  It then looks for a session of that id, and makes one.
-/

namespace MqttBroker

variable {cfg : Config} {κ σ : Type}

/-! ## The session of the empty id -/

/-- `session_find_or_create` for the empty id fails, or finds a session that is
offline without subscriptions. -/
def UnnamedLeft (pool : SessionPool cfg) (callocOk : Bool) : Prop :=
  match pool with
  | none => callocOk = false
  | some sessions =>
      match findSession sessions [] with
      | some i => (sessions i).offline = true ∧ (sessions i).subCount = 0
      | none => ∀ i, (sessions i).inUse = true

/-- The session pool after `client_free` has saved nothing for the empty id. -/
def saveUnnamed (pool : SessionPool cfg) (callocOk : Bool) : SessionPool cfg :=
  let r := sessionFindOrCreate pool callocOk []
  match r.2.1 with
  | none => r.1
  | some i => r.1.map fun sessions ↦ Function.update sessions i ((sessions i).saveSubs [])

theorem Session.saveSubs_nil (x : Session) :
    x.saveSubs [] = x ↔ x.offline = true ∧ x.subCount = 0 := by
  have hsave : x.saveSubs [] = { x with subCount := 0, offline := true } := by
    simp [saveSubs]
  rw [hsave]
  constructor
  · intro h
    exact ⟨(congrArg Session.offline h).symm, (congrArg Session.subCount h).symm⟩
  · rintro ⟨hoff, hcount⟩
    cases x
    simp_all

theorem saveUnnamed_some (sessions : SessionSlot cfg → Session) (callocOk : Bool) :
    saveUnnamed (some sessions) callocOk = some sessions ↔ UnnamedLeft (some sessions) callocOk := by
  unfold saveUnnamed UnnamedLeft sessionFindOrCreate sessionPoolEnsure
  dsimp only
  cases hfind : findSession sessions [] with
  | some i =>
      dsimp only
      rw [Option.map_some, Option.some.injEq, Function.update_eq_self_iff]
      exact (sessions i).saveSubs_nil
  | none =>
      dsimp only
      cases hfree : (List.finRange cfg.maxClients).find? fun i ↦ !(sessions i).inUse with
      | none =>
          refine iff_of_true rfl fun i ↦ ?_
          simpa using List.find?_eq_none.mp hfree i (List.mem_finRange i)
      | some i =>
          have hi : (sessions i).inUse = false := by simpa using List.find?_some hfree
          refine iff_of_false (fun h ↦ ?_) fun h ↦ absurd (h i) (by simp [hi])
          have huse := congrArg (fun pool ↦ pool.map fun f : SessionSlot cfg → Session ↦
            (f i).inUse) h
          simp [Session.saveSubs, freshSession, hi] at huse

theorem saveUnnamed_ne_none (sessions : SessionSlot cfg → Session) (callocOk : Bool) :
    saveUnnamed (some sessions) callocOk ≠ none := by
  unfold saveUnnamed sessionFindOrCreate sessionPoolEnsure
  dsimp only
  cases findSession sessions [] with
  | some i => simp
  | none => cases (List.finRange cfg.maxClients).find? fun i ↦ !(sessions i).inUse <;> simp

/-- Saving for the empty id leaves the pool as it is exactly then. -/
theorem saveUnnamed_eq (pool : SessionPool cfg) (callocOk : Bool) :
    saveUnnamed pool callocOk = pool ↔ UnnamedLeft pool callocOk := by
  cases pool with
  | some sessions => exact saveUnnamed_some sessions callocOk
  | none =>
      cases callocOk with
      | false => exact iff_of_true rfl rfl
      | true => exact iff_of_false (saveUnnamed_ne_none (fun _ ↦ default) true) (by simp [UnnamedLeft])

/-! ## The end of the connection -/

namespace TopicTable

variable [DecidableEq κ] {t : TopicTable cfg κ} {c : κ}

theorem NoneOf.find (h : t.NoneOf c) : (List.finRange cfg.topicMaxSubs).find? (fun i ↦
    (t.subs i).inUse && (t.subs i).client = c) = none :=
  List.find?_eq_none.mpr fun i _ ↦ by simpa using h i

theorem NoneOf.topicGetClientSubs (h : t.NoneOf c) (max : ℕ) : t.topicGetClientSubs c max = [] := by
  have hnil : (List.finRange cfg.topicMaxSubs).filter (fun i ↦
      (t.subs i).inUse && (t.subs i).client = c) = [] :=
    List.filter_eq_nil_iff.mpr fun i _ ↦ by simpa using h i
  simp [TopicTable.topicGetClientSubs, hnil]

theorem NoneOf.topicUnsubscribeAll (h : t.NoneOf c) : t.topicUnsubscribeAll c = some (t, []) := by
  unfold TopicTable.topicUnsubscribeAll
  split_ifs
  · rw [unsubscribeRounds, h.find]
  · have hloop : ∀ l : List (Slot cfg), l.foldlM (fun t i ↦
        if (t.subs i).inUse ∧ (t.subs i).client = c then t.removeSlot i else some t) t = some t := by
      intro l
      induction l with
      | nil => rfl
      | cons i l ih =>
          rw [List.foldlM_cons, if_neg fun hi ↦ h i hi.1 hi.2]
          exact ih
    rw [hloop]
    rfl

end TopicTable

section

variable [DecidableEq κ]

/-- A connection as `client_alloc` has made it, up to sending to it. -/
structure Client.Unnamed (c : Client) : Prop where
  clientId : c.clientId = []
  cleanSession : c.cleanSession = false
  hasWill : c.hasWill = false
  inflight : ∀ i, (c.inflight i).inUse = false

omit [DecidableEq κ] in
theorem Client.Unnamed.clientSend {c : Client} (h : c.Unnamed) (sendOk : Bool) :
    (c.clientSend sendOk).Unnamed := by
  unfold Client.clientSend
  split_ifs
  · exact h
  · exact ⟨h.clientId, h.cleanSession, h.hasWill, h.inflight⟩

theorem persistSession_unnamed {b : Broker cfg κ} {k : κ} (hc : (b.clients k).Unnamed)
    (hnone : b.table.NoneOf k) (callocOk : Bool) :
    persistSession b k callocOk = { b with sessions := saveUnnamed b.sessions callocOk } := by
  have hsave : ∀ x : Session, x.saveInflights (b.clients k) = x := by
    intro x
    unfold Session.saveInflights
    rw [List.foldl_map]
    have hone : ∀ i, x.saveInflight ((b.clients k).inflight i) = x := fun i ↦ by
      simp [Session.saveInflight, hc.inflight i]
    induction List.finRange CLIENT_INFLIGHT_MAX with
    | nil => rfl
    | cons i l ih => rw [List.foldl_cons, hone, ih]
  unfold persistSession saveUnnamed
  rw [hnone.topicGetClientSubs, hc.clientId]
  dsimp only
  generalize sessionFindOrCreate b.sessions callocOk [] = r
  obtain ⟨pool, sess, present⟩ := r
  cases sess with
  | none => rfl
  | some i => simp only [Broker.updateSession, hsave]

theorem clientFree_unnamed {b : Broker cfg κ} {k : κ} (hc : (b.clients k).Unnamed)
    (hnone : b.table.NoneOf k) (env : Env κ) (callocOk : Bool) :
    ∃ h, clientFree env callocOk b k = some h ∧
      h.broker.sessions = saveUnnamed b.sessions callocOk := by
  have hself : (b.updateClient k (·.closeFd)).clients k = (b.clients k).closeFd :=
    Function.update_self _ _ _
  have hclosed : (b.updateClient k (·.closeFd)).clients k |>.Unnamed := by
    rw [hself]
    exact ⟨hc.clientId, hc.cleanSession, hc.hasWill, hc.inflight⟩
  have hwill : publishWill env (b.updateClient k (·.closeFd)) k =
      some ⟨b.updateClient k (·.closeFd), []⟩ := by
    unfold publishWill
    rw [hclosed.hasWill]
    rfl
  unfold clientFree
  rw [hwill, Option.bind_eq_bind, Option.bind_some]
  dsimp only
  rw [hclosed.cleanSession]
  simp only [Bool.false_eq_true, if_false]
  rw [persistSession_unnamed hclosed hnone callocOk]
  have hall : (b.updateClient k (·.closeFd)).table.topicUnsubscribeAll k = some (b.table, []) :=
    hnone.topicUnsubscribeAll
  dsimp only
  rw [hall]
  exact ⟨_, rfl, rfl⟩

/-- `client_alloc`, `client_thread_fn` and `client_free` of a connection that does not
get through `handle_connect`; `first` is its first packet, if one is received. -/
def refusedConnection (env : Env κ) (callocOk : Bool) (b : Broker cfg κ) (k : κ) (fd : ℤ)
    (first : Option MqttPacket) : Option (Handled cfg κ) :=
  let b := clientAlloc b k fd
  match first with
  | none => clientFree env callocOk b k
  | some pkt =>
      if pkt.typeFlags ≠ PacketType.connect then clientFree env callocOk b k
      else clientFree env callocOk (handleConnect env b k pkt).broker k

/-- The packet is not a CONNECT that `handle_connect` accepts. -/
def MqttPacket.Refused (cfg : Config) (pkt : MqttPacket) : Prop :=
  pkt.typeFlags = PacketType.connect → ∃ code, connectCheck cfg pkt = .error code

theorem handleConnect_unnamed (env : Env κ) {b : Broker cfg κ} {k : κ} {pkt : MqttPacket}
    {code : Option UInt8} (hcheck : connectCheck cfg pkt = .error code)
    (hc : (b.clients k).Unnamed) :
    ((handleConnect env b k pkt).broker.clients k).Unnamed ∧
      (handleConnect env b k pkt).broker.sessions = b.sessions ∧
      (handleConnect env b k pkt).broker.table = b.table := by
  have hself : ∀ (b : Broker cfg κ) (f : Client → Client),
      (b.updateClient k f).clients k = f (b.clients k) := fun _ _ ↦ Function.update_self _ _ _
  have hclose : ∀ {b : Broker cfg κ}, (b.clients k).Unnamed → ((b.close k).clients k).Unnamed := by
    intro b h
    rw [Broker.close, hself]
    exact ⟨h.clientId, h.cleanSession, h.hasWill, h.inflight⟩
  rw [handleConnect, hcheck]
  dsimp only
  cases code.bind fun code ↦ packetBuildConnack 0 code 4 with
  | none => exact ⟨hclose hc, rfl, rfl⟩
  | some frame =>
      refine ⟨hclose ?_, rfl, rfl⟩
      rw [Handled.reply, hself]
      exact hc.clientSend _

variable [DecidableEq σ]

namespace Threads

variable {s : Threads cfg κ σ} {k : κ}

/-- A connection that is not accepted leaves the sessions as they were if and only if
`client_free` finds no slot for the empty id, or one that is offline without
subscriptions already. -/
theorem refused_sessions_iff [Inhabited κ] (h : ReachBy (fun _ _ ↦ True) s)
    (hfree : (s.broker.clients k).state = .free) (env : Env κ) (callocOk : Bool) (fd : ℤ)
    {first : Option MqttPacket} (hrefused : ∀ pkt ∈ first, pkt.Refused cfg) :
    ∃ h', refusedConnection env callocOk s.broker k fd first = some h' ∧
      (h'.broker.sessions = s.broker.sessions ↔ UnnamedLeft s.broker.sessions callocOk) := by
  have hnone : s.broker.table.NoneOf k :=
    bare_of_reach h k (by rw [(settled_of_reach h).free k hfree]; trivial)
  have halloc : ((clientAlloc s.broker k fd).clients k).Unnamed := by
    have hself : (clientAlloc s.broker k fd).clients k = clientAllocated fd :=
      Function.update_self _ _ _
    rw [hself]
    exact ⟨rfl, rfl, rfl, fun _ ↦ rfl⟩
  have hend : ∀ b : Broker cfg κ, (b.clients k).Unnamed → b.sessions = s.broker.sessions →
      b.table = s.broker.table → ∃ h', clientFree env callocOk b k = some h' ∧
        (h'.broker.sessions = s.broker.sessions ↔ UnnamedLeft s.broker.sessions callocOk) := by
    intro b hb hsessions htable
    obtain ⟨h', hrun, hafter⟩ := clientFree_unnamed hb (htable ▸ hnone) env callocOk
    exact ⟨h', hrun, by rw [hafter, hsessions, saveUnnamed_eq]⟩
  unfold refusedConnection
  cases first with
  | none => exact hend _ halloc rfl rfl
  | some pkt =>
      dsimp only
      split_ifs with htype
      · exact hend _ halloc rfl rfl
      · obtain ⟨code, hcheck⟩ := hrefused pkt rfl (not_not.mp htype)
        obtain ⟨hc, hsessions, htable⟩ := handleConnect_unnamed env hcheck halloc
        exact hend _ hc hsessions htable

open Relation in
/-- Without other threads in between, the threads do what `refusedConnection` does. -/
theorem refusedConnection_steps [Inhabited κ] (h : ReachBy (fun _ _ ↦ True) s)
    (hfree : (s.broker.clients k).state = .free) {env : Env κ} {callocOk : Bool} {fd : ℤ}
    {first : Option MqttPacket} (hrefused : ∀ pkt ∈ first, pkt.Refused cfg) {h' : Handled cfg κ}
    (hrun : refusedConnection env callocOk s.broker k fd first = some h') :
    ReflTransGen Step s { s.goTo k h'.broker .idle with
      gen := Function.update s.gen k (s.gen k + 1) } := by
  let a : Threads cfg κ σ := { s.goTo k (clientAlloc s.broker k fd) .waiting with
    gen := Function.update s.gen k (s.gen k + 1) }
  have halloc : s.Step a := ⟨.alloc k fd, if_pos hfree⟩
  have hpc : a.conn k = .waiting := goTo_conn s k (clientAlloc s.broker k fd) .waiting
  have hjob : s.jobs (.inl k) = none := by
    have hs := settled_of_reach h
    by_contra hjob
    rcases hs.jobs k hjob with hconn | ⟨ack, hconn⟩ <;> simp [hs.free k hfree] at hconn
  have hend : ∀ b : Broker cfg κ, clientFree env callocOk b k = some h' →
      ReflTransGen Step (a.goTo k b .closeFd) { s.goTo k h'.broker .idle with
        gen := Function.update s.gen k (s.gen k + 1) } := by
    intro b hfreed
    have hsteps := clientFree_steps (s := a.goTo k b .closeFd) hjob hfreed
    have hlast : a.goTo k h'.broker .idle = { s.goTo k h'.broker .idle with
        gen := Function.update s.gen k (s.gen k + 1) } := by simp [a, goTo]
    rw [goTo_goTo, goTo_goTo, hlast] at hsteps
    exact hsteps
  refine .head halloc ?_
  unfold refusedConnection at hrun
  cases first with
  | none =>
      refine .head ⟨.leave k, ?_⟩ (hend _ hrun)
      simp only [step, hpc]
      rfl
  | some pkt =>
      dsimp only at hrun
      split_ifs at hrun with htype
      · refine .head ⟨.connect k env pkt, ?_⟩ (hend _ hrun)
        simp only [step, hpc, if_pos htype]
        rfl
      · obtain ⟨code, hcheck⟩ := hrefused pkt rfl (not_not.mp htype)
        refine .head (b := a.goTo k (handleConnect env a.broker k pkt).broker .loop)
          ⟨.connect k env pkt, ?_⟩ (.head ⟨.next k env, ?_⟩ (hend _ hrun))
        · simp only [step, hpc, if_neg htype, hcheck]
        · have hdown : ((handleConnect env a.broker k pkt).broker.clients k).state ≠ .connected := by
            rw [handleConnect, hcheck]
            simp [Broker.close, Broker.updateClient]
          have hjob' : (a.goTo k (handleConnect env a.broker k pkt).broker .loop).jobs (.inl k) =
              none := hjob
          simp only [step, hjob', if_true, goTo_conn, goTo_broker, connStep, hdown, if_false,
            Option.map_some, goTo_goTo]
          rfl

end Threads

end

/-- The statement at a connection that is closed at once, with no memory for the
session pool. -/
theorem refused_sessions_iff_no_memory : ∃ h' : Handled Config.posix ℕ,
    refusedConnection Sample.env false (Threads.init Config.posix ℕ Unit).broker 0 5 none =
      some h' ∧ h'.broker.sessions = none := by
  have hnothing : ∀ pkt ∈ (none : Option MqttPacket), pkt.Refused Config.posix := by simp
  obtain ⟨h', hrun, hiff⟩ := Threads.refused_sessions_iff
    (s := Threads.init Config.posix ℕ Unit) (k := 0) .init rfl Sample.env false 5 hnothing
  exact ⟨h', hrun, hiff.mpr rfl⟩

namespace Sample

/-- A connection that is closed before it sends anything. -/
def silent : Option (Handled Config.posix ℕ) :=
  refusedConnection env true (Threads.init Config.posix ℕ Unit).broker 0 5 none

theorem silent_isSome : silent.isSome = true := by decide

end Sample

/-- A connection that is closed before it sends anything leaves a session with an
empty client id. -/
theorem silent_connection_saved : ∃ h' : Handled Config.posix ℕ,
    refusedConnection Sample.env true (Threads.init Config.posix ℕ Unit).broker 0 5 none =
      some h' ∧ h'.broker.sessions ≠ (Threads.init Config.posix ℕ Unit).broker.sessions ∧
      (h'.broker.session ⟨0, by decide⟩).inUse = true ∧
      (h'.broker.session ⟨0, by decide⟩).offline = true ∧
      (h'.broker.session ⟨0, by decide⟩).clientId = [] := by
  have hsome : (Sample.silent.get Sample.silent_isSome).broker.sessions.isSome = true := by decide
  refine ⟨_, (Option.some_get Sample.silent_isSome).symm, fun h ↦ ?_, by decide, by decide,
    by decide⟩
  rw [h] at hsome
  cases hsome

end MqttBroker
