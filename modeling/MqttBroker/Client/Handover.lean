import MqttBroker.Client.Away

/-!
# A CONNECT that takes a client id over

`client_takeover` only marks the older connection.  Its thread comes to `client_free`
later, stores or deletes the session of the client id there, and finds out nothing of
the new connection that has it.
-/

namespace MqttBroker

open Relation

variable {cfg : Config} {κ σ : Type}

/-- A connection whose session has been looked up, until `client_free` begins. -/
def ConnPc.Serving : ConnPc cfg → Prop
  | .connack _ _ | .restore _ _ | .online _ | .drain _ | .loop | .recv | .publish _ _ | .reply _ |
    .closeFd => True
  | _ => False

/-- A thread in `handle_connect` after the session has been looked up. -/
def ConnPc.Opened : ConnPc cfg → Prop
  | .connack _ _ | .restore _ _ | .online _ | .drain _ | .loop => True
  | _ => False

/-- `client_free` has done with the session what it does. -/
def ConnPc.Handed (clean : Bool) : ConnPc cfg → Prop
  | .saveInflight _ _ | .unsubscribe | .delete => clean = false
  | .release => True
  | _ => False

namespace Threads

/-- A CONNECT without clean session, in slot `j`, is about to take the client id over from the
connection in slot `k`. -/
structure TakesOver (s : Threads cfg κ σ) (k j : κ) (id : CStr) : Prop where
  named : id ≠ []
  new : ∃ conn, s.conn j = .takeover conn ∧ conn.clientId = id ∧ conn.cleanSession = false
  old : s.Holds k id
  serving : (s.conn k).Serving
  alone : ∀ i, i ≠ k → ¬ s.Bears i id

/-- No other CONNECT has the client id, and `handle_connect` has not returned from this one. -/
structure OneConnect (j : κ) (id : CStr) (s : Threads cfg κ σ) (e : ThreadEvent κ σ) : Prop where
  connect : ∀ i env conn, e = .next i env → s.conn i = .takeover conn → conn.clientId = id → i = j
  handled : ∀ env, e = .next j env → s.conn j ≠ .loop

theorem Bears.not_idle {s : Threads cfg κ σ} {k : κ} {id : CStr} (hb : s.Bears k id) :
    s.conn k ≠ .idle := by
  rcases hb with ⟨hidle, -⟩ | ⟨conn, hpc, -⟩
  · exact hidle
  · simp [hpc]

theorem Bears.clientId {s : Threads cfg κ σ} {k : κ} {id : CStr} (hb : s.Bears k id)
    (hassign : ∀ conn, s.conn k ≠ .assignId conn) : (s.broker.clients k).clientId = id := by
  rcases hb with ⟨-, hid⟩ | ⟨conn, hpc, -⟩
  · exact hid
  · exact absurd hpc (hassign conn)

variable [DecidableEq κ]

/-- The session is left to the new connection in `client_free` before that looks it up, or
before that reads the stored subscriptions if the session is there already and stays.  Both find
a session, which takes all subscriptions and is stored to by no other client, and there is room
for those that are restored. -/
structure HandsOver (k j : κ) (id : CStr) (s : Threads cfg κ σ) (e : ThreadEvent κ σ) : Prop where
  opens : ∀ env conn, e = .next j env → s.conn j = .openSession conn → s.Bears k id →
    (s.conn k).Handed (s.broker.clients k).cleanSession ∨
      (s.broker.clients k).cleanSession = false ∧ ∃ i x, SessionAt s.broker.sessions id i x
  reads : ∀ env i n, e = .next j env → s.conn j = .restore i n → s.Bears k id →
    (s.conn k).Handed (s.broker.clients k).cleanSession
  slot : ∀ i env, e = .next i env → (s.broker.clients i).clientId = id →
    ((∃ l, s.conn i = .lookup l) ∨ ∃ conn, s.conn i = .openSession conn) →
      SlotAvailable s.broker.sessions env.callocOk id
  few : ∀ env, e = .next k env → s.conn k = .closeFd → (s.broker.clients k).clientId = id →
    (s.broker.clients k).cleanSession = false →
      (s.broker.table.heldBy k).card ≤ SESSION_SUB_MAX
  own : ∀ i env n l, e = .next i env → s.conn i = .saveSubs n l →
    (s.broker.clients i).clientId ≠ id → ∀ x, ¬ SessionAt s.broker.sessions id n x
  room : ∀ env i n, e = .next j env → s.conn j = .restore i n →
    n < (s.broker.session i).subCount → s.broker.table.findFree ≠ none

/-- What the old connection was and held when `client_free` began: clean session or not, and its
subscriptions. -/
abbrev FreedAs := Option (Bool × Finset (CStr × UInt8))

def noteFreed (id : CStr) (s : Threads cfg κ σ) (e : ThreadEvent κ σ) (n : FreedAs) : FreedAs :=
  match n, e with
  | none, .next k _ =>
      if s.conn k = .closeFd ∧ (s.broker.clients k).clientId = id then
        some ((s.broker.clients k).cleanSession, s.broker.table.subsOf k)
      else none
  | n, _ => n

/-- The threads, and what the old connection of a client id was and held. -/
def takingOver (cfg : Config) (κ σ : Type) [DecidableEq κ] [DecidableEq σ] (id : CStr) :
    Observer.System (Threads cfg κ σ) (ThreadEvent κ σ) FreedAs where
  step := Threads.step
  note := noteFreed id

/-! ## The invariant -/

/-- Where the new connection stands, and its session from then on. -/
def Opening (s : Threads cfg κ σ) (j : κ) (id : CStr) : ConnPc cfg → Prop
  | .takeover conn => conn.clientId = id ∧ conn.cleanSession = false ∧
      (s.broker.clients j).clientId ≠ id
  | .assignId conn | .assignRest conn | .openSession conn =>
      conn.clientId = id ∧ conn.cleanSession = false
  | .connack sess present => ∃ i x, sess = some i ∧ SessionAt s.broker.sessions id i x ∧
      (present = false → x.offline = false)
  | .restore i _ | .online i => ∃ x, SessionAt s.broker.sessions id i x
  | .drain _ | .loop => ∃ i x, SessionAt s.broker.sessions id i x ∧ x.offline = false
  | _ => False

/-- The new connection has read nothing of its session. -/
def Unread (s : Threads cfg κ σ) (j : κ) : ConnPc cfg → Prop
  | .takeover _ | .assignId _ | .assignRest _ | .openSession _ => True
  | .connack _ present => present = true
  | .restore _ n => n = 0 ∧ s.broker.table.subsOf j = ∅
  | _ => False

/-- The subscriptions of the old connection are with it, or in the session. -/
def HandingOn (s : Threads cfg κ σ) (k j : κ) (id : CStr) (subs : Finset (CStr × UInt8)) : Prop :=
  ((s.broker.clients k).clientId = id ∧ (s.broker.clients k).cleanSession = false ∧
      Leaving s.broker k id subs (s.conn k) ∧ s.Unread j (s.conn j)) ∨
    ∃ l i, Lists l subs ∧ KeptAt s.broker.sessions id i l ∧
      ∀ i', s.Bears i' id → Returning s.broker i' l i (s.conn i')

/-- The takeover under way. -/
structure Handing (k j : κ) (id : CStr) (s : Threads cfg κ σ) (n : FreedAs) : Prop where
  ne : k ≠ j
  alone : ∀ i, i ≠ k → i ≠ j → ¬ s.Bears i id
  new : s.Opening j id (s.conn j)
  named : (s.conn j).Opened → (s.broker.clients j).clientId = id
  before : n = none → (s.conn k).Serving ∧ (s.broker.clients k).clientId = id ∧
    s.Unread j (s.conn j) ∧ ((s.conn j).Opened → (s.broker.clients k).cleanSession = false)
  after : ∀ clean subs, n = some (clean, subs) → s.Bears k id →
    (s.broker.clients k).cleanSession = clean ∧ (s.conn k).Freeing
  cleaned : ∀ subs, n = some (true, subs) → (s.conn j).Opened → s.Bears k id → s.conn k = .release
  kept : ∀ subs, n = some (false, subs) → s.HandingOn k j id subs

/-! ## The steps of the old connection -/

variable [DecidableEq σ] {s s' : Threads cfg κ σ} {e : ThreadEvent κ σ} {k j : κ} {id : CStr}

/-- Until `client_free` the connection keeps its client id and its clean session flag. -/
theorem serving_own (hset : s.Settled) (h : s.step e = some s') (hk : e.slot = some k)
    (hserving : (s.conn k).Serving) (hopen : s.conn k ≠ .closeFd) :
    (s'.conn k).Serving ∧ (s'.broker.clients k).clientId = (s.broker.clients k).clientId ∧
      (s'.broker.clients k).cleanSession = (s.broker.clients k).cleanSession := by
  have hown := own_cases h hk
  generalize s'.broker.clients k = c, s'.conn k = pc at hown
  cases hown with
  | alloc fd =>
      cases step_cases h with
      | alloc _ _ hfree =>
          rw [hset.free k hfree] at hserving
          exact hserving.elim
  | notConnect env pkt hpc | connect env pkt conn hpc | reject env pkt code c hpc
  | will env c hpc =>
      rw [hpc] at hserving
      exact hserving.elim
  | leave hpc => exact ⟨trivial, rfl, rfl⟩
  | packet env pkt c pc hpc hstays hpc' =>
      refine ⟨?_, hstays.clientId, hstays.cleanSession⟩
      rcases hpc' with rfl | rfl | ⟨pub, ack, rfl⟩ <;> trivial
  | tick env c hpc hstays => exact ⟨trivial, hstays.clientId, hstays.cleanSession⟩
  | publish env pub ack c hpc hstays => exact ⟨trivial, hstays.clientId, hstays.cleanSession⟩
  | next env h' pc hnext =>
      have hstays : (s.broker.clients k).Stays (h'.broker.clients k) := by
        rcases connStep_stays hnext with hstays | ⟨conn, hpc, -⟩ | ⟨conn, hpc, -⟩ | ⟨hpc, -⟩
        · exact hstays
        all_goals
          rw [hpc] at hserving
          exact hserving.elim
      refine ⟨?_, hstays.clientId, hstays.cleanSession⟩
      cases hpc : s.conn k with
      | connack sess present =>
          rw [hpc] at hnext
          cases hnext
          rcases sess with - | i <;> cases present <;> trivial
      | restore i n =>
          rw [hpc] at hnext
          simp only [connStep] at hnext
          split at hnext <;> cases hnext <;> trivial
      | online i | drain i | reply ack =>
          rw [hpc] at hnext
          cases hnext
          trivial
      | loop =>
          rw [hpc] at hnext
          cases hnext
          split_ifs <;> trivial
      | recv | publish =>
          rw [hpc] at hnext
          cases hnext
      | closeFd => exact absurd hpc hopen
      | _ =>
          rw [hpc] at hserving
          exact hserving.elim

/-- In `client_free` it keeps the flag. -/
theorem freeing_own (hset : s.Settled) (h : s.step e = some s') (hk : e.slot = some k)
    (hfree : (s.conn k).Freeing) (hidle : s.conn k ≠ .idle) :
    (s'.conn k).Freeing ∧
      (s'.broker.clients k).cleanSession = (s.broker.clients k).cleanSession := by
  have hown := own_cases h hk
  generalize s'.broker.clients k = c, s'.conn k = pc at hown
  cases hown with
  | alloc fd =>
      cases step_cases h with
      | alloc _ _ hslot => exact absurd (hset.free k hslot) hidle
  | notConnect env pkt hpc | connect env pkt conn hpc | reject env pkt code c hpc
  | packet env pkt c pc hpc | tick env c hpc | publish env pub ack c hpc =>
      rw [hpc] at hfree
      exact hfree.elim
  | leave hpc => rcases hpc with hpc | hpc <;> rw [hpc] at hfree <;> exact hfree.elim
  | will env c hpc hwill hstays => exact ⟨trivial, hstays.cleanSession⟩
  | next env h' pc hnext =>
      refine ⟨(connStep_pc_cases hnext).2.1 hfree, ?_⟩
      rcases connStep_stays hnext with hstays | ⟨conn, hpc, -⟩ | ⟨conn, hpc, -⟩ | ⟨-, hc⟩
      · exact hstays.cleanSession
      · rw [hpc] at hfree
        exact hfree.elim
      · rw [hpc] at hfree
        exact hfree.elim
      · rw [hc]

/-! ## The session of the new connection -/

namespace Handing

variable {n : FreedAs} (hs : s.Handing k j id n)

include hs

omit [DecidableEq σ] in
/-- Only the old and the new connection have the client id. -/
theorem cases_of_clientId {i : κ} (hidle : s.conn i ≠ .idle)
    (hi : (s.broker.clients i).clientId = id) : i = k ∨ i = j := by
  by_contra hne
  obtain ⟨hk, hj⟩ := not_or.mp hne
  exact hs.alone i hk hj (.inl ⟨hidle, hi⟩)

omit [DecidableEq σ] in
/-- Where the old connection is once the new one has its session. -/
theorem old_of_opened (hopened : (s.conn j).Opened) (hidle : s.conn k ≠ .idle)
    (hk : (s.broker.clients k).clientId = id) :
    (s.conn k).Serving ∨ s.conn k = .release ∨
      (s.broker.clients k).cleanSession = false ∧ (s.conn k).Freeing := by
  have hb : s.Bears k id := .inl ⟨hidle, hk⟩
  match hn : n with
  | none => exact .inl (hs.before rfl).1
  | some (true, subs) => exact .inr (.inl (hs.cleaned subs rfl hopened hb))
  | some (false, subs) => exact .inr (.inr (hs.after false subs rfl hb))

omit [DecidableEq σ] in
/-- The old connection stores to the session of the client id. -/
theorem saves_own (hone : OneSession s.broker.sessions id) (hopened : (s.conn j).Opened)
    {m : SessionSlot cfg} {l : List (CStr × UInt8)} (hpc : s.conn k = .saveSubs m l)
    (hk : (s.broker.clients k).clientId = id) {i : SessionSlot cfg} {x : Session}
    (hx : SessionAt s.broker.sessions id i x) : m = i := by
  have hb : s.Bears k id := .inl ⟨by simp [hpc], hk⟩
  match hn : n with
  | none =>
      have hserving := (hs.before rfl).1
      rw [hpc] at hserving
      exact hserving.elim
  | some (true, subs) =>
      have hrelease := hs.cleaned subs rfl hopened hb
      rw [hpc] at hrelease
      cases hrelease
  | some (false, subs) =>
      rcases hs.kept subs rfl with ⟨-, -, hleave, -⟩ | ⟨l', i', -, -, hall⟩
      · rw [hpc] at hleave
        obtain ⟨-, y, hy⟩ := hleave
        exact hone m i y x hy hx
      · have hret := hall k hb
        rw [hpc] at hret
        exact hret.elim

/-- Only the old connection can store to the session; nothing else takes it away. -/
theorem session_step (ht : s.Tidy) (hover : s.HandsOver k j id e) (h : s.step e = some s')
    (hopened : (s.conn j).Opened) {i : SessionSlot cfg} {x : Session}
    (hx : SessionAt s.broker.sessions id i x) :
    (∃ env l, e = .next k env ∧ s.conn k = .saveSubs i l ∧ (s.broker.clients k).clientId = id) ∨
      ∃ x', SessionAt s'.broker.sessions id i x' ∧ (x.offline = false → x'.offline = false) := by
  by_cases hsaving : ∃ env m l, e = .next k env ∧ s.conn k = .saveSubs m l ∧
      (s.broker.clients k).clientId = id
  · obtain ⟨env, m, l, he, hpc, hk⟩ := hsaving
    obtain rfl := hs.saves_own (ht.one id) hopened hpc hk hx
    exact .inl ⟨env, l, he, hpc, hk⟩
  · right
    have hothers : ∀ i' env m l, e = .next i' env → s.conn i' = .saveSubs m l → m ≠ i := by
      intro i' env m l he hpc
      by_cases hi : (s.broker.clients i').clientId = id
      · rcases hs.cases_of_clientId (by simp [hpc]) hi with rfl | rfl
        · exact absurd ⟨env, m, l, he, hpc, hi⟩ hsaving
        · rw [hpc] at hopened
          exact hopened.elim
      · rintro rfl
        exact hover.own i' env m l he hpc hi x hx
    have hopens : ∀ i' env conn, e = .next i' env → s.conn i' = .openSession conn →
        conn.clientId = id → conn.cleanSession = false := by
      intro i' env conn he hpc hconn
      have hi := (ht.bears_open hpc hconn).clientId (by simp [hpc])
      rcases hs.cases_of_clientId (by simp [hpc]) hi with rfl | rfl
      · have hold := hs.old_of_opened hopened (by simp [hpc]) hi
        rw [hpc] at hold
        rcases hold with hold | hold | ⟨-, hold⟩
        · exact hold.elim
        · cases hold
        · exact hold.elim
      · rw [hpc] at hopened
        exact hopened.elim
    have hdeletes : ∀ i' env, e = .next i' env → s.conn i' = .delete →
        (s.broker.clients i').clientId = id → (s.broker.clients i').cleanSession = false := by
      intro i' env he hpc hi
      rcases hs.cases_of_clientId (by simp [hpc]) hi with rfl | rfl
      · have hold := hs.old_of_opened hopened (by simp [hpc]) hi
        rw [hpc] at hold
        rcases hold with hold | hold | ⟨hclean, -⟩
        · exact hold.elim
        · cases hold
        · exact hclean
      · rw [hpc] at hopened
        exact hopened.elim
    obtain ⟨x', hx', -⟩ := Threads.session_step ht h hx hopens hothers hdeletes
    refine ⟨x', hx', fun hoff ↦ ?_⟩
    rcases noneGone_step h with hgone | ⟨i', env, m, l, he, hpc, hb⟩
    · by_contra hoff'
      have hat := hx'
      obtain ⟨p, -, -, huse, -⟩ := hat
      have haway := hgone i (by
        rw [hx'.session_eq]
        exact ⟨huse, by simpa using hoff'⟩)
      rw [hx.session_eq] at haway
      exact absurd haway.1.2 (by simp [hoff])
    · rw [hb, sessionAt_updateSession_ne (hothers i' env m l he hpc).symm] at hx'
      rwa [hx'.unique hx]

/-- The session stays there. -/
theorem session_stays [Inhabited κ] (ht : s.Tidy) (hset : s.Settled) (hover : s.HandsOver k j id e)
    (h : s.step e = some s') (hopened : (s.conn j).Opened) {i : SessionSlot cfg} {x : Session}
    (hx : SessionAt s.broker.sessions id i x) : ∃ x', SessionAt s'.broker.sessions id i x' := by
  rcases hs.session_step ht hover h hopened hx with ⟨env, l, rfl, hpc, hk⟩ | ⟨x', hx', -⟩
  · obtain ⟨env', h', pc, -, hnext, rfl⟩ := own_next hset h rfl (by rw [hpc]; trivial)
    rw [hpc] at hnext
    cases hnext
    have hat := hx
    obtain ⟨-, -, -, huse, hxid⟩ := hat
    exact ⟨x.saveSubs l, sessionAt_updateSession hx ⟨huse, hxid⟩⟩
  · exact ⟨x', hx'⟩

/-- Once the new connection has begun to read it, the session does not go offline. -/
theorem session_online (ht : s.Tidy) (hover : s.HandsOver k j id e) (h : s.step e = some s')
    (hopened : (s.conn j).Opened) (hread : ¬ s.Unread j (s.conn j)) {i : SessionSlot cfg}
    {x : Session} (hx : SessionAt s.broker.sessions id i x) (hoff : x.offline = false) :
    ∃ x', SessionAt s'.broker.sessions id i x' ∧ x'.offline = false := by
  rcases hs.session_step ht hover h hopened hx with ⟨env, l, -, hpc, hk⟩ | ⟨x', hx', hkeeps⟩
  · have hb : s.Bears k id := .inl ⟨by simp [hpc], hk⟩
    match hn : n with
    | none => exact absurd (hs.before rfl).2.2.1 hread
    | some (true, subs) =>
        have hrelease := hs.cleaned subs rfl hopened hb
        rw [hpc] at hrelease
        cases hrelease
    | some (false, subs) =>
        rcases hs.kept subs rfl with ⟨-, -, -, hunread⟩ | ⟨l', i', -, -, hall⟩
        · exact absurd hunread hread
        · have hret := hall k hb
          rw [hpc] at hret
          exact hret.elim
  · exact ⟨x', hx', hkeeps hoff⟩

omit [DecidableEq κ] [DecidableEq σ] hs in
/-- The session that is looked up. -/
theorem opening_open {env : Env κ} {conn : MqttConnect} (hid : conn.clientId = id)
    (hlen : id.length < MQTT_CLIENT_ID_MAX) (hclean : conn.cleanSession = false)
    (hslot : SlotAvailable s.broker.sessions env.callocOk id) :
    ∃ i x, (connectSession s.broker.sessions env.callocOk conn).2.1 = some i ∧
      SessionAt (connectSession s.broker.sessions env.callocOk conn).1 id i x ∧
      ((connectSession s.broker.sessions env.callocOk conn).2.2 = false → x.offline = false) := by
  have hfound := hslot.lookup
  unfold connectSession
  rw [if_neg (by simp [hclean]), hid]
  rcases sessionFindOrCreate_cases s.broker.sessions env.callocOk id with
    ⟨i, x, hx, heq⟩ | ⟨-, ⟨p, i, -, -, heq⟩ | ⟨pool, -, heq⟩⟩
  · rw [heq]
    exact ⟨i, x, rfl, hx, nofun⟩
  · rw [heq]
    exact ⟨i, freshSession id, rfl, sessionAt_some.mpr ⟨by simp, rfl, take_clientId hlen⟩,
      fun _ ↦ rfl⟩
  · rw [heq] at hfound
    exact absurd rfl hfound

omit [DecidableEq κ] [DecidableEq σ] hs in
theorem runs_of_opening (hnew : s.Opening j id (s.conn j)) : Runs (s.conn j) := by
  cases hpc : s.conn j with
  | idle | waiting | recv | publish | will =>
      rw [hpc] at hnew
      exact hnew.elim
  | _ => trivial

/-- A step of the new connection. -/
theorem opening_own [Inhabited κ] (ht : s.Tidy) (hset : s.Settled) (hone : s.OneConnect j id e)
    (hover : s.HandsOver k j id e) (h : s.step e = some s') (hj : e.slot = some j) :
    s'.Opening j id (s'.conn j) ∧
      ((s'.conn j).Opened → (s'.broker.clients j).clientId = id) := by
  have hnew := hs.new
  obtain ⟨env, h', pc, rfl, hnext, heq⟩ := own_next hset h hj (runs_of_opening hnew)
  have hpc' : s'.conn j = pc := by rw [heq, goTo_conn]
  have hnamed : (s.conn j).Opened → (s'.broker.clients j).clientId = id := by
    intro hopened
    rw [heq, goTo_broker, ← hs.named hopened]
    rcases connStep_stays hnext with hstays | ⟨conn, hat, -⟩ | ⟨conn, hat, -⟩ | ⟨hat, -⟩
    · exact hstays.clientId
    all_goals
      rw [hat] at hopened
      exact hopened.elim
  have hstays : (s.conn j).Opened → ∀ {i x}, SessionAt s.broker.sessions id i x →
      ∃ x', SessionAt s'.broker.sessions id i x' := fun hopened ↦
    hs.session_stays ht hset hover h hopened
  have honline : (s.conn j).Opened → ¬ s.Unread j (s.conn j) → ∀ {i x},
      SessionAt s.broker.sessions id i x → x.offline = false →
        ∃ x', SessionAt s'.broker.sessions id i x' ∧ x'.offline = false := fun hopened hread ↦
    hs.session_online ht hover h hopened hread
  rw [hpc']
  cases hpc : s.conn j with
  | takeover conn =>
      rw [hpc] at hnext hnew
      cases hnext
      exact ⟨⟨hnew.1, hnew.2.1⟩, False.elim⟩
  | assignId conn | assignRest conn =>
      rw [hpc] at hnext hnew
      cases hnext
      exact ⟨hnew, False.elim⟩
  | openSession conn =>
      have hclient := (ht.named j conn (.inr hpc))
      have hslot := hover.slot j env rfl (by rw [hclient]; rw [hpc] at hnew; exact hnew.1)
        (.inr ⟨conn, hpc⟩)
      rw [hpc] at hnext hnew
      cases hnext
      subst heq
      exact ⟨opening_open hnew.1 (hnew.1 ▸ ht.conns j conn (by rw [hpc]; rfl)) hnew.2 hslot,
        fun _ ↦ hclient.trans hnew.1⟩
  | connack sess present =>
      rw [hpc] at hnext hnew hnamed hstays honline
      cases hnext
      obtain ⟨i, x, rfl, hx, hoff⟩ := hnew
      refine ⟨?_, fun _ ↦ hnamed trivial⟩
      cases present with
      | true => exact hstays trivial hx
      | false => exact ⟨i, honline trivial (by simp [Unread]) hx (hoff rfl)⟩
  | restore i m =>
      rw [hpc] at hnext hnew hnamed hstays
      obtain ⟨x, hx⟩ := hnew
      have hx' := hstays trivial hx
      refine ⟨?_, fun _ ↦ hnamed trivial⟩
      simp only [connStep] at hnext
      split at hnext <;> cases hnext <;> exact hx'
  | online i =>
      rw [hpc] at hnext hnew hnamed
      obtain ⟨x, hx⟩ := hnew
      cases hnext
      refine ⟨?_, fun _ ↦ hnamed trivial⟩
      have hat := hx
      obtain ⟨-, -, -, huse, hxid⟩ := hat
      subst heq
      exact ⟨i, _, sessionAt_updateSession hx (f := fun x ↦ { x with offline := false })
        ⟨huse, hxid⟩, rfl⟩
  | drain i =>
      rw [hpc] at hnext hnew hnamed honline
      cases hnext
      obtain ⟨i', x, hx, hoff⟩ := hnew
      exact ⟨⟨i', honline trivial (by simp [Unread]) hx hoff⟩, fun _ ↦ hnamed trivial⟩
  | loop => exact absurd hpc (hone.handled env rfl)
  | _ =>
      rw [hpc] at hnew
      exact hnew.elim

/-- A step of another thread. -/
theorem opening_other [Inhabited κ] (ht : s.Tidy) (hset : s.Settled) (hover : s.HandsOver k j id e)
    (h : s.step e = some s') (hj : e.slot ≠ some j) : s'.Opening j id (s'.conn j) ∧
      ((s'.conn j).Opened → (s'.broker.clients j).clientId = id) := by
  have hnew := hs.new
  have huntouched := step_untouched h hj
  have hid' := huntouched.client.clientId
  rw [huntouched.conn, hid']
  refine ⟨?_, hs.named⟩
  have hstays : (s.conn j).Opened → ∀ {i x}, SessionAt s.broker.sessions id i x →
      ∃ x', SessionAt s'.broker.sessions id i x' := fun hopened ↦
    hs.session_stays ht hset hover h hopened
  have honline : (s.conn j).Opened → ¬ s.Unread j (s.conn j) → ∀ {i x},
      SessionAt s.broker.sessions id i x → x.offline = false →
        ∃ x', SessionAt s'.broker.sessions id i x' ∧ x'.offline = false := fun hopened hread ↦
    hs.session_online ht hover h hopened hread
  cases hpc : s.conn j with
  | takeover conn =>
      rw [hpc] at hnew
      exact ⟨hnew.1, hnew.2.1, hid' ▸ hnew.2.2⟩
  | assignId conn | assignRest conn | openSession conn =>
      rw [hpc] at hnew
      exact hnew
  | connack sess present =>
      rw [hpc] at hnew hstays honline
      obtain ⟨i, x, rfl, hx, hoff⟩ := hnew
      cases present with
      | true =>
          obtain ⟨x', hx'⟩ := hstays trivial hx
          exact ⟨i, x', rfl, hx', nofun⟩
      | false =>
          obtain ⟨x', hx', hoff'⟩ := honline trivial (by simp [Unread]) hx (hoff rfl)
          exact ⟨i, x', rfl, hx', fun _ ↦ hoff'⟩
  | restore i m | online i =>
      rw [hpc] at hnew hstays
      obtain ⟨x, hx⟩ := hnew
      exact hstays trivial hx
  | drain i | loop =>
      rw [hpc] at hnew honline
      obtain ⟨i, x, hx, hoff⟩ := hnew
      exact ⟨i, honline trivial (by simp [Unread]) hx hoff⟩
  | _ =>
      rw [hpc] at hnew
      exact hnew.elim

/-- The new connection gets its session in `handle_connect`. -/
theorem opened_back [Inhabited κ] (hset : s.Settled) (h : s.step e = some s')
    (hopened : (s'.conn j).Opened) : (s.conn j).Opened ∨
      ∃ env conn, e = .next j env ∧ s.conn j = .openSession conn := by
  by_cases hj : e.slot = some j
  · obtain ⟨env, h', pc, rfl, hnext, rfl⟩ := own_next hset h hj (runs_of_opening hs.new)
    have hnew := hs.new
    cases hpc : s.conn j with
    | openSession conn => exact .inr ⟨env, conn, rfl, rfl⟩
    | connack | restore | online | drain | loop => exact .inl trivial
    | takeover | assignId | assignRest =>
        rw [goTo_conn] at hopened
        rw [hpc] at hnext
        cases hnext
        exact hopened.elim
    | _ =>
        rw [hpc] at hnew
        exact hnew.elim
  · left
    rwa [(step_untouched h hj).conn] at hopened

omit hs in
theorem unread_other (h : s.step e = some s') (hj : e.slot ≠ some j)
    (hread : s.Unread j (s.conn j)) : s'.Unread j (s'.conn j) := by
  rw [(step_untouched h hj).conn]
  cases hpc : s.conn j with
  | restore i m =>
      rw [hpc] at hread
      exact ⟨hread.1, (sameFor_step h hj).subsOf.trans hread.2⟩
  | takeover | assignId | assignRest | openSession => trivial
  | connack sess present =>
      rw [hpc] at hread
      exact hread
  | _ =>
      rw [hpc] at hread
      exact hread.elim

/-- While the session is not left to it, the new connection reads nothing. -/
theorem unread_own [Inhabited κ] (hset : s.Settled)
    (hbare : ∀ k, (s.conn k).Bare → s.broker.table.NoneOf k) (hover : s.HandsOver k j id e)
    (h : s.step e = some s') (hj : e.slot = some j) (hb : s.Bears k id)
    (hhand : ¬ (s.conn k).Handed (s.broker.clients k).cleanSession)
    (hread : s.Unread j (s.conn j)) : s'.Unread j (s'.conn j) := by
  have hnew := hs.new
  obtain ⟨env, h', pc, rfl, hnext, rfl⟩ := own_next hset h hj (runs_of_opening hnew)
  rw [goTo_conn]
  cases hpc : s.conn j with
  | takeover | assignId | assignRest =>
      rw [hpc] at hnext
      cases hnext
      trivial
  | openSession conn =>
      obtain ⟨-, i, x, hx⟩ := (hover.opens env conn rfl hpc hb).resolve_left hhand
      rw [hpc] at hnext hnew
      cases hnext
      dsimp only [Unread, connectSession]
      rw [if_neg (by simp [hnew.2]), hnew.1]
      rcases sessionFindOrCreate_cases s.broker.sessions env.callocOk id with
        ⟨i', y, -, heq⟩ | ⟨hnone, -⟩
      · rw [heq]
      · exact absurd hx (hnone i x)
  | connack sess present =>
      have hnone := hbare j (by rw [hpc]; trivial)
      rw [hpc] at hnext hnew hread
      cases hnext
      obtain ⟨i, -, rfl, -⟩ := hnew
      obtain rfl : present = true := hread
      exact ⟨rfl, TopicTable.subsOf_noneOf hnone⟩
  | restore i m => exact absurd (hover.reads env i m rfl hpc hb) hhand
  | _ =>
      rw [hpc] at hread
      exact hread.elim

omit [DecidableEq σ] hs in
/-- A connection that has read nothing is on its way to what is stored now. -/
theorem returning_of_unread {l : List (CStr × UInt8)} {i : SessionSlot cfg} {x : Session}
    (hone : OneSession s.broker.sessions id) (hnew : s.Opening j id (s.conn j))
    (hread : s.Unread j (s.conn j)) (hx : SessionAt s.broker.sessions id i x)
    (hb : s.Bears j id) : Returning s.broker j l i (s.conn j) := by
  cases hpc : s.conn j with
  | takeover conn =>
      rw [hpc] at hnew
      exact absurd (hb.clientId (by simp [hpc])) hnew.2.2
  | assignId conn | assignRest conn | openSession conn =>
      rw [hpc] at hnew
      exact hnew.2
  | connack sess present =>
      rw [hpc] at hnew hread
      obtain ⟨i', y, rfl, hy, -⟩ := hnew
      exact ⟨congrArg some (hone i' i y x hy hx), hread⟩
  | restore i' m =>
      rw [hpc] at hnew hread
      obtain ⟨y, hy⟩ := hnew
      obtain ⟨rfl, hnone⟩ := hread
      exact ⟨hone i' i y x hy hx, Nat.zero_le _, by rw [hnone]; rfl⟩
  | _ =>
      rw [hpc] at hread
      exact hread.elim

/-! ### The steps of all -/

omit hs in
theorem bears_back (ht : s.Tidy) (hid : id ≠ []) (hone : s.OneConnect j id e)
    (h : s.step e = some s') {i : κ} (hi : i ≠ j) (hb : s'.Bears i id) : s.Bears i id := by
  rcases bears_step ht h hid hb with hb | ⟨env, conn, he, hpc, hconn⟩
  · exact hb
  · exact absurd (hone.connect i env conn he hpc hconn) hi

omit [DecidableEq σ] in
/-- In `client_free` the premises of a disconnected client's way hold. -/
theorem undisturbed (hone : s.OneConnect j id e) (hover : s.HandsOver k j id e)
    (hfree : s.Bears k id → (s.conn k).Freeing) : s.Undisturbed id e where
  slot i env l he hpc hi := hover.slot i env he hi (.inl ⟨l, hpc⟩)
  connect i env conn he hpc hconn := by
    obtain rfl := hone.connect i env conn he hpc hconn
    have hnew := hs.new
    rw [hpc] at hnew
    exact hnew.2.1
  handled i env he hpc hi := by
    rcases hs.cases_of_clientId (by simp [hpc]) hi with rfl | rfl
    · have hfree := hfree (.inl ⟨by simp [hpc], hi⟩)
      rw [hpc] at hfree
      exact hfree
    · exact hone.handled env he hpc

/-- The old connection has not stored its subscriptions yet. -/
theorem leaving_step [Inhabited κ] (ht : s.Tidy) (hset : s.Settled)
    (hbare : ∀ k, (s.conn k).Bare → s.broker.table.NoneOf k) (hid : id ≠ [])
    (hone : s.OneConnect j id e) (hover : s.HandsOver k j id e) (h : s.step e = some s')
    {subs : Finset (CStr × UInt8)} (hk : (s.broker.clients k).clientId = id)
    (hclean : (s.broker.clients k).cleanSession = false)
    (hleave : Leaving s.broker k id subs (s.conn k)) (hread : s.Unread j (s.conn j))
    (hnew' : s'.Opening j id (s'.conn j)) : s'.HandingOn k j id subs := by
  have hidle : s.conn k ≠ .idle := by
    intro hpc
    rw [hpc] at hleave
    exact hleave
  have hb : s.Bears k id := .inl ⟨hidle, hk⟩
  have hfree : (s.conn k).Freeing := by
    cases hpc : s.conn k <;> rw [hpc] at hleave <;> trivial
  have hhand : ¬ (s.conn k).Handed (s.broker.clients k).cleanSession := by
    intro hhand
    cases hpc : s.conn k <;> rw [hpc] at hleave hhand <;> first | exact hhand | exact hleave
  by_cases hslot : e.slot = some k
  · have hj : e.slot ≠ some j := by
      rw [hslot]
      exact fun heq ↦ hs.ne (Option.some.inj heq)
    have hread' := unread_other h hj hread
    obtain ⟨⟨hk', hclean'⟩, hleave' | ⟨l, i, hl, hkept, hpc⟩⟩ := leaving_own ht hset
      (hs.undisturbed hone hover fun _ ↦ hfree) h hslot hk hclean hleave
    · exact .inl ⟨hk', hclean', hleave', hread'⟩
    · refine .inr ⟨l, i, hl, hkept, fun i' hb' ↦ ?_⟩
      by_cases hik : i' = k
      · subst hik
        rw [hpc]
        exact hclean'
      · have hij : i' = j := by
          by_contra hij
          exact hs.alone i' hik hij (bears_back ht hid hone h hij hb')
        subst hij
        obtain ⟨x, hx, -⟩ := hkept
        exact returning_of_unread ((ht.step h).one id) hnew' hread' hx hb'
  · have huntouched := (step_untouched h hslot).client
    have hsession : ∀ i x, SessionAt s.broker.sessions id i x →
        ∃ x', SessionAt s'.broker.sessions id i x' ∧ x.SameSubs x' := by
      intro i x hx
      have hnew := hs.new
      have hwho : ∀ i' env, e = .next i' env → s.conn i' ≠ .idle →
          (s.broker.clients i').clientId = id → i' = j := by
        intro i' env he hpc hi
        refine (hs.cases_of_clientId hpc hi).resolve_left ?_
        rintro rfl
        exact hslot (he ▸ rfl)
      refine Threads.session_step ht h hx (fun i' env conn he hpc hconn ↦ ?_)
        (fun i' env m l he hpc ↦ ?_) fun i' env he hpc hi ↦ ?_
      · have hi := (ht.bears_open hpc hconn).clientId (by simp [hpc])
        obtain rfl := hwho i' env he (by simp [hpc]) hi
        rw [hpc] at hnew
        exact hnew.2
      · rintro rfl
        by_cases hi : (s.broker.clients i').clientId = id
        · obtain rfl := hwho i' env he (by simp [hpc]) hi
          rw [hpc] at hnew
          exact hnew
        · exact hover.own i' env m l he hpc hi x hx
      · obtain rfl := hwho i' env he (by simp [hpc]) hi
        rw [hpc] at hnew
        exact hnew.elim
    refine .inl ⟨huntouched.clientId.trans hk, huntouched.cleanSession.trans hclean,
      leaving_other h hslot hleave hsession, ?_⟩
    by_cases hj : e.slot = some j
    · exact hs.unread_own hset hbare hover h hj hb hhand hread
    · exact unread_other h hj hread

/-- Before `client_free`. -/
theorem serving_step [Inhabited κ] (hn : n = none) (hset : s.Settled)
    (hbare : ∀ k, (s.conn k).Bare → s.broker.table.NoneOf k) (hover : s.HandsOver k j id e)
    (h : s.step e = some s') (hopen : e.slot = some k → s.conn k ≠ .closeFd) :
    (s'.conn k).Serving ∧ (s'.broker.clients k).clientId = id ∧ s'.Unread j (s'.conn j) ∧
      ((s'.conn j).Opened → (s'.broker.clients k).cleanSession = false) := by
  obtain ⟨hserving, hk, hread, hflag⟩ := hs.before hn
  have hb : s.Bears k id := .inl ⟨fun hpc ↦ by rw [hpc] at hserving; exact hserving, hk⟩
  have hhand : ¬ (s.conn k).Handed (s.broker.clients k).cleanSession := by
    intro hhand
    cases hpc : s.conn k <;> rw [hpc] at hserving hhand <;> first | exact hhand | exact hserving
  have hflag' : (s'.conn j).Opened → (s.broker.clients k).cleanSession = false := by
    intro hopened
    rcases hs.opened_back hset h hopened with hopened | ⟨env, conn, he, hpc⟩
    · exact hflag hopened
    · exact ((hover.opens env conn he hpc hb).resolve_left hhand).1
  by_cases hslot : e.slot = some k
  · have hj : e.slot ≠ some j := by
      rw [hslot]
      exact fun heq ↦ hs.ne (Option.some.inj heq)
    obtain ⟨hserving', hk', hclean'⟩ := serving_own hset h hslot hserving (hopen hslot)
    exact ⟨hserving', hk'.trans hk, unread_other h hj hread, fun ho ↦ hclean'.trans (hflag' ho)⟩
  · have huntouched := step_untouched h hslot
    refine ⟨huntouched.conn ▸ hserving, huntouched.client.clientId.trans hk, ?_,
      fun ho ↦ huntouched.client.cleanSession.trans (hflag' ho)⟩
    by_cases hj : e.slot = some j
    · exact hs.unread_own hset hbare hover h hj hb hhand hread
    · exact unread_other h hj hread

/-- `client_free` begins. -/
theorem closing_step [Inhabited κ] (hn : n = none) (hset : s.Settled)
    (hover : s.HandsOver k j id e) (h : s.step e = some s') (hslot : e.slot = some k)
    (hpc : s.conn k = .closeFd) :
    noteFreed id s e n = some ((s.broker.clients k).cleanSession, s.broker.table.subsOf k) ∧
      (s'.broker.clients k).cleanSession = (s.broker.clients k).cleanSession ∧
      s'.conn k = .will ∧ ((s'.conn j).Opened → (s.broker.clients k).cleanSession = false) ∧
      ((s.broker.clients k).cleanSession = false →
        s'.HandingOn k j id (s.broker.table.subsOf k)) := by
  obtain ⟨-, hk, hread, hflag⟩ := hs.before hn
  have hj : e.slot ≠ some j := by
    rw [hslot]
    exact fun heq ↦ hs.ne (Option.some.inj heq)
  have hread' := unread_other h hj hread
  have hconn := (step_untouched h hj).conn
  have hfew := hover.few
  obtain ⟨env, h', pc, rfl, hnext, rfl⟩ := own_next hset h hslot (by rw [hpc]; trivial)
  rw [hpc] at hnext
  cases hnext
  have hself : ((s.broker.updateClient k (·.closeFd)).clients k) =
      (s.broker.clients k).closeFd := Function.update_self _ _ _
  refine ⟨?_, ?_, goTo_conn _ _ _ _, fun hopened ↦ hflag (hconn ▸ hopened), fun hclean ↦ .inl ?_⟩
  · rw [hn]
    exact if_pos ⟨hpc, hk⟩
  · rw [goTo_broker, hself]
    rfl
  · rw [goTo_conn, goTo_broker, hself]
    exact ⟨hk, hclean, ⟨hfew env rfl hpc hk hclean, rfl⟩, hread'⟩

/-- The session of a connection with clean session has been deleted when it is looked up. -/
theorem cleaned_step [Inhabited κ] {subs : Finset (CStr × UInt8)} (hn : n = some (true, subs))
    (ht : s.Tidy) (hset : s.Settled) (hid : id ≠ []) (hone : s.OneConnect j id e)
    (hover : s.HandsOver k j id e) (h : s.step e = some s') (hopened : (s'.conn j).Opened)
    (hb' : s'.Bears k id) : s'.conn k = .release := by
  have hb := bears_back ht hid hone h hs.ne hb'
  have hclean := (hs.after true subs hn hb).1
  rcases hs.opened_back hset h hopened with hopened | ⟨env, conn, rfl, hpc⟩
  · have hrelease := hs.cleaned subs hn hopened hb
    by_cases hslot : e.slot = some k
    · obtain ⟨env, h', pc, rfl, hnext, rfl⟩ := own_next hset h hslot (by rw [hrelease]; trivial)
      rw [hrelease] at hnext
      cases hnext
      exact absurd (goTo_conn _ _ _ _) hb'.not_idle
    · rwa [(step_untouched h hslot).conn]
  · have hslot : (ThreadEvent.next j env : ThreadEvent κ σ).slot ≠ some k :=
      fun heq ↦ hs.ne (Option.some.inj heq).symm
    rw [(step_untouched h hslot).conn]
    rcases hover.opens env conn rfl hpc hb with hhand | ⟨hpersistent, -⟩
    · rw [hclean] at hhand
      cases hk : s.conn k <;> rw [hk] at hhand <;> first | rfl | exact hhand.elim | cases hhand
    · rw [hclean] at hpersistent
      cases hpersistent

/-- The subscriptions of a persistent connection stay on their way. -/
theorem kept_step [Inhabited κ] {subs : Finset (CStr × UInt8)} (hn : n = some (false, subs))
    (ht : s.Tidy) (hset : s.Settled) (hbare : ∀ k, (s.conn k).Bare → s.broker.table.NoneOf k)
    (hid : id ≠ []) (hone : s.OneConnect j id e) (hover : s.HandsOver k j id e)
    (h : s.step e = some s') (hnew' : s'.Opening j id (s'.conn j)) :
    s'.HandingOn k j id subs := by
  have hfree : s.Bears k id → (s.conn k).Freeing := fun hb ↦ (hs.after false subs hn hb).2
  rcases hs.kept subs hn with ⟨hk, hclean, hleave, hread⟩ | ⟨l, i, hl, hkept, hall⟩
  · exact hs.leaving_step ht hset hbare hid hone hover h hk hclean hleave hread hnew'
  · refine .inr ⟨l, i, hl, returning_step ht hset hbare hid (hs.undisturbed hone hover hfree) ?_ h
      hl hkept hall⟩
    refine ⟨fun i' env conn he hpc hconn i₂ hi₂ hunsaved ↦ ?_, hover.own,
      fun i' env m r he hpc hi hlt ↦ ?_⟩
    · have hret := hall i₂ (.inl ⟨fun hidle ↦ by rw [hidle] at hunsaved; exact hunsaved, hi₂⟩)
      cases hpc₂ : s.conn i₂ <;> rw [hpc₂] at hret hunsaved <;> first | exact hret | exact hunsaved
    · rcases hs.cases_of_clientId (by simp [hpc]) hi with rfl | rfl
      · have hfree := hfree (.inl ⟨by simp [hpc], hi⟩)
        rw [hpc] at hfree
        exact hfree.elim
      · exact hover.room env m r he hpc hlt

/-- The step lemma: a step that hands the session over keeps the invariant. -/
theorem step [Inhabited κ] (ht : s.Tidy) (hset : s.Settled)
    (hbare : ∀ k, (s.conn k).Bare → s.broker.table.NoneOf k) (hid : id ≠ [])
    (hone : s.OneConnect j id e) (hover : s.HandsOver k j id e) (h : s.step e = some s') :
    s'.Handing k j id (noteFreed id s e n) := by
  have halone : ∀ i, i ≠ k → i ≠ j → ¬ s'.Bears i id := fun i hk hj hb ↦
    hs.alone i hk hj (bears_back ht hid hone h hj hb)
  obtain ⟨hnew', hnamed'⟩ : s'.Opening j id (s'.conn j) ∧
      ((s'.conn j).Opened → (s'.broker.clients j).clientId = id) := by
    by_cases hj : e.slot = some j
    · exact hs.opening_own ht hset hone hover h hj
    · exact hs.opening_other ht hset hover h hj
  cases hn : n with
  | none =>
      by_cases hclose : e.slot = some k ∧ s.conn k = .closeFd
      · obtain ⟨hnote, hclean, hpc, hflag, hkept⟩ :=
          hs.closing_step hn hset hover h hclose.1 hclose.2
        rw [hn] at hnote
        rw [hnote]
        refine ⟨hs.ne, halone, hnew', hnamed', nofun, ?_, ?_, ?_⟩
        · rintro clean subs heq -
          cases heq
          exact ⟨hclean, by rw [hpc]; trivial⟩
        · intro subs heq hopened
          have hfalse := hflag hopened
          rw [hfalse] at heq
          cases heq
        · intro subs heq
          obtain ⟨hfalse, rfl⟩ := Prod.mk.inj (Option.some.inj heq)
          exact hkept hfalse
      · have hbefore := hs.serving_step hn hset hbare hover h fun hslot hpc ↦ hclose ⟨hslot, hpc⟩
        have hnote : noteFreed id s e none = none := by
          cases e with
          | next i env =>
              refine if_neg fun hi ↦ hclose ?_
              rcases hs.cases_of_clientId (by simp [hi.1]) hi.2 with rfl | rfl
              · exact ⟨rfl, hi.1⟩
              · have hnew := hs.new
                rw [hi.1] at hnew
                exact hnew.elim
          | _ => rfl
        rw [hnote]
        exact ⟨hs.ne, halone, hnew', hnamed', fun _ ↦ hbefore, nofun, nofun, nofun⟩
  | some r =>
      have hnote : noteFreed id s e (some r) = some r := rfl
      rw [hnote]
      refine ⟨hs.ne, halone, hnew', hnamed', nofun, ?_, ?_, ?_⟩
      · intro clean subs heq hb'
        have hb := bears_back ht hid hone h hs.ne hb'
        obtain ⟨hclean, hfree⟩ := hs.after clean subs (hn.trans heq) hb
        by_cases hslot : e.slot = some k
        · obtain ⟨hfree', hclean'⟩ := freeing_own hset h hslot hfree hb.not_idle
          exact ⟨hclean'.trans hclean, hfree'⟩
        · have huntouched := step_untouched h hslot
          exact ⟨huntouched.client.cleanSession.trans hclean, huntouched.conn ▸ hfree⟩
      · intro subs heq
        exact hs.cleaned_step (hn.trans heq) ht hset hid hone hover h
      · intro subs heq
        exact hs.kept_step (hn.trans heq) ht hset hbare hid hone hover h hnew'

end Handing

omit [DecidableEq σ] in
theorem TakesOver.handing (hstart : s.TakesOver k j id) : s.Handing k j id none where
  ne := by
    rintro rfl
    obtain ⟨conn, hpc, -⟩ := hstart.new
    have hserving := hstart.serving
    rw [hpc] at hserving
    exact hserving
  alone i hk _ := hstart.alone i hk
  new := by
    obtain ⟨conn, hpc, hconn, hclean⟩ := hstart.new
    have hne : j ≠ k := by
      rintro rfl
      have hserving := hstart.serving
      rw [hpc] at hserving
      exact hserving
    rw [hpc]
    exact ⟨hconn, hclean, fun hid ↦ hstart.alone j hne (.inl ⟨by simp [hpc], hid⟩)⟩
  named hopened := by
    obtain ⟨conn, hpc, -⟩ := hstart.new
    rw [hpc] at hopened
    exact hopened.elim
  before _ := by
    obtain ⟨conn, hpc, -⟩ := hstart.new
    refine ⟨hstart.serving, hstart.old.2, ?_, fun hopened ↦ ?_⟩
    · rw [hpc]
      trivial
    · rw [hpc] at hopened
      exact hopened.elim
  after _ _ := nofun
  cleaned _ := nofun
  kept _ := nofun

/-- In every run in which the session is handed over, the new connection has it after
`handle_connect`, not marked offline, and the subscriptions of a persistent old connection. -/
theorem handed_over [Inhabited κ] {s₀ : Threads cfg κ σ} {n : FreedAs}
    (h₀ : ReachBy (fun _ _ ↦ True) s₀) (hstart : s₀.TakesOver k j id)
    (hrun : Observer.Reach (takingOver cfg κ σ id)
      (fun s _ e ↦ s.OneConnect j id e ∧ s.HandsOver k j id e) s₀ none s n)
    (hpc : s.conn j = .loop) : ∃ clean subs, n = some (clean, subs) ∧
      (∃ i x, SessionAt s.broker.sessions id i x ∧ x.offline = false) ∧
      (clean = false → s.broker.table.subsOf j = subs) := by
  have hinv : ReachBy (fun _ _ ↦ True) s ∧ s.Handing k j id n := by
    refine hrun.invariant (I := fun s n ↦ ReachBy (fun _ _ ↦ True) s ∧ s.Handing k j id n)
      ⟨h₀, hstart.handing⟩ ?_
    rintro s n e s' - ⟨hreach, hhanding⟩ hallowed hstep
    exact ⟨hreach.step trivial hstep, hhanding.step (tidy_of_reach hreach) (settled_of_reach hreach)
      (bare_of_reach hreach) hstart.named hallowed.1 hallowed.2 hstep⟩
  obtain ⟨-, hs⟩ := hinv
  have hunread : ¬ s.Unread j (s.conn j) := by
    rw [hpc]
    exact not_false
  have hopened : (s.conn j).Opened := by
    rw [hpc]
    trivial
  have hnew := hs.new
  rw [hpc] at hnew
  match hn : n with
  | none => exact absurd (hs.before rfl).2.2.1 hunread
  | some (clean, subs) =>
      refine ⟨clean, subs, rfl, hnew, ?_⟩
      rintro rfl
      rcases hs.kept subs rfl with ⟨-, -, -, hread⟩ | ⟨l, i, hl, -, hall⟩
      · exact absurd hread hunread
      · have hret := hall j (.inl ⟨by simp [hpc], hs.named hopened⟩)
        rw [hpc] at hret
        exact hret.trans hl.eq

end Threads

namespace Sample

open Threads

/-- CONNECT of client id `b` without clean session. -/
def returnPkt : MqttPacket :=
  ⟨PacketType.connect, 13, [0, 4, 0x4D, 0x51, 0x54, 0x54, 4, 0, 0, 60, 0, 1, 0x62]⟩

/-- Client `a` has subscribed to `t`, and its CONNECT over a second connection comes. -/
def secondRun : List (ThreadEvent (Fin 2) Unit) :=
  arriveRun 0 connectPkt 6 ++ [.packet 0 envTwo subscribePkt, .next 0 envTwo, .alloc 1 6,
    .connect 1 envTwo connectPkt]

/-- Client `b` has connected with clean session, and now comes without. -/
def cleanSecondRun : List (ThreadEvent (Fin 2) Unit) :=
  arriveRun 0 connectCleanPkt 6 ++ [.alloc 1 6, .connect 1 envTwo returnPkt]

/-- The first connection's thread sees its state at the next timeout and frees it. -/
def freeRun (n : ℕ) : List (ThreadEvent (Fin 2) Unit) :=
  .tick 0 envTwo :: List.replicate n (.next 0 envTwo)

/-- `handle_connect` returns before. -/
def lateFree (n m : ℕ) : List (ThreadEvent (Fin 2) Unit) :=
  List.replicate n (.next 1 envTwo) ++ freeRun m

/-- The first connection is freed after `client_takeover`. -/
def earlyFree : List (ThreadEvent (Fin 2) Unit) :=
  .next 1 envTwo :: freeRun 15 ++ List.replicate 8 (.next 1 envTwo)

/-- The start of a takeover of `id`, as far as it can be evaluated. -/
def aboutTo (id : CStr) (s : Threads Config.posix (Fin 2) Unit) : Bool :=
  match s.conn 1 with
  | .takeover conn => decide (conn.clientId = id ∧ conn.cleanSession = false ∧
      s.conn 0 = .recv ∧ ((s.broker.clients 0).state = .connected ∧
        (s.broker.clients 0).clientId = id) ∧ (s.broker.clients 1).clientId ≠ id)
  | _ => false

theorem takesOver_of_aboutTo {id : CStr} (hid : id ≠ []) {s : Threads Config.posix (Fin 2) Unit}
    (h : aboutTo id s = true) : s.TakesOver 0 1 id := by
  unfold aboutTo at h
  split at h
  · next conn hpc =>
      obtain ⟨hconn, hclean, hrecv, hholds, hne⟩ := of_decide_eq_true h
      refine ⟨hid, ⟨conn, hpc, hconn, hclean⟩, hholds, by rw [hrecv]; trivial, fun i hi hb ↦ ?_⟩
      obtain rfl : i = 1 := by omega
      exact hne (hb.clientId (by simp [hpc]))
  · cases h

/-- What `OneConnect` asks of a step. -/
def noOther (s : Threads Config.posix (Fin 2) Unit) : ThreadEvent (Fin 2) Unit → Bool
  | .next i _ =>
      match s.conn i with
      | .takeover _ => decide (i = 1)
      | .loop => decide (i ≠ 1)
      | _ => true
  | _ => true

theorem oneConnect_of_noOther {id : CStr} {s : Threads Config.posix (Fin 2) Unit}
    {e : ThreadEvent (Fin 2) Unit} (h : noOther s e = true) : s.OneConnect 1 id e where
  connect i env conn he hpc _ := by
    subst he
    simp only [noOther, hpc] at h
    exact of_decide_eq_true h
  handled env he hpc := by
    subst he
    simp only [noOther, hpc] at h
    exact absurd rfl (of_decide_eq_true h)

/-- What `HandsOver` asks of a step, where the old connection is freed before the session is
looked up. -/
def inOrder (id : CStr) (s : Threads Config.posix (Fin 2) Unit) : ThreadEvent (Fin 2) Unit → Bool
  | .next i env =>
      let slot := match sessionPoolEnsure s.broker.sessions env.callocOk with
        | some p => decide (∃ i, (p i).inUse = false ∨ (p i).clientId = id)
        | none => false
      match s.conn i with
      | .openSession _ => decide (s.conn 0 = .idle) && slot
      | .lookup _ => slot
      | .restore _ _ => decide (s.conn 0 = .idle) && s.broker.table.findFree.isSome
      | .closeFd => decide ((s.broker.table.heldBy 0).card ≤ SESSION_SUB_MAX)
      | .saveSubs _ _ => decide ((s.broker.clients i).clientId = id)
      | _ => true
  | _ => true

theorem handsOver_of_inOrder {id : CStr} {s : Threads Config.posix (Fin 2) Unit}
    {e : ThreadEvent (Fin 2) Unit} (h : inOrder id s e = true) : s.HandsOver 0 1 id e where
  opens env conn he hpc hb := by
    subst he
    simp only [inOrder, hpc, Bool.and_eq_true] at h
    exact absurd (of_decide_eq_true h.1) hb.not_idle
  reads env i n he hpc hb := by
    subst he
    simp only [inOrder, hpc, Bool.and_eq_true] at h
    exact absurd (of_decide_eq_true h.1) hb.not_idle
  slot i env he _ hat := by
    subst he
    have hslot : (match sessionPoolEnsure s.broker.sessions env.callocOk with
        | some p => decide (∃ i, (p i).inUse = false ∨ (p i).clientId = id)
        | none => false) = true := by
      rcases hat with ⟨l, hpc⟩ | ⟨conn, hpc⟩
      · simpa only [inOrder, hpc] using h
      · simp only [inOrder, hpc, Bool.and_eq_true] at h
        exact h.2
    split at hslot
    · next p hp => exact ⟨p, hp, of_decide_eq_true hslot⟩
    · cases hslot
  few env he hpc _ _ := by
    subst he
    simp only [inOrder, hpc] at h
    exact of_decide_eq_true h
  own i env m l he hpc hne := by
    subst he
    simp only [inOrder, hpc] at h
    exact absurd (of_decide_eq_true h) hne
  room env i m he hpc _ := by
    subst he
    simp only [inOrder, hpc, Bool.and_eq_true] at h
    exact Option.ne_none_iff_isSome.mpr h.2

/-- A takeover by these events: its start is as `aboutTo` says, its steps meet the check, and
something holds at its end. -/
def takeoverRun (id : CStr) (start es : List (ThreadEvent (Fin 2) Unit))
    (check : Threads Config.posix (Fin 2) Unit → ThreadEvent (Fin 2) Unit → Bool)
    (last : Threads Config.posix (Fin 2) Unit → FreedAs → Bool) : Bool :=
  ((init _ _ _).run start).any fun s₀ ↦ aboutTo id s₀ &&
    Observer.checked (takingOver _ _ _ id) (fun s _ e ↦ check s e = true) s₀ none es &&
    (Observer.run (takingOver _ _ _ id) (s₀, none) es).any fun r ↦ last r.1 r.2

theorem exists_of_takeoverRun {id : CStr} (hid : id ≠ [])
    {start es : List (ThreadEvent (Fin 2) Unit)}
    {check : Threads Config.posix (Fin 2) Unit → ThreadEvent (Fin 2) Unit → Bool}
    {last : Threads Config.posix (Fin 2) Unit → FreedAs → Bool}
    (h : takeoverRun id start es check last = true) :
    ∃ s₀ s n, ReachBy (fun _ _ ↦ True) s₀ ∧ s₀.TakesOver 0 1 id ∧
      Observer.Reach (takingOver _ _ _ id) (fun s _ e ↦ check s e = true) s₀ none s n ∧
      last s n = true := by
  unfold takeoverRun at h
  cases hstart : (init Config.posix (Fin 2) Unit).run start with
  | none =>
      rw [hstart] at h
      cases h
  | some s₀ =>
      rw [hstart, Option.any_some, Bool.and_eq_true, Bool.and_eq_true] at h
      obtain ⟨⟨habout, hchecked⟩, hlast⟩ := h
      obtain ⟨s, n, hrun⟩ := Observer.exists_run_of_checked hchecked
      rw [hrun, Option.any_some] at hlast
      exact ⟨s₀, s, n, ReachBy.init.run (fun _ _ _ ↦ trivial) hstart,
        takesOver_of_aboutTo hid habout, Observer.Reach.run_of_checked hchecked .start hrun, hlast⟩

/-- Both threads are done, and the new connection is up. -/
def bothDone (s : Threads Config.posix (Fin 2) Unit) : Bool :=
  decide (s.conn 0 = .idle ∧ s.conn 1 = .loop ∧ (s.broker.clients 1).state = .connected)

/-- The session of client `a` is marked offline, and its subscription is gone. -/
def leftOffline (s : Threads Config.posix (Fin 2) Unit) (n : FreedAs) : Bool :=
  bothDone s && (s.broker.sessions.any fun p ↦ decide (∃ i, (p i).offline = true ∧
    (p i).inUse = true ∧ (p i).clientId = [0x61])) &&
    decide (n = some (false, {([0x74], 2)}) ∧ s.broker.table.subsOf 1 = ∅)

/-- There is no session of client `b`. -/
def leftWithout (s : Threads Config.posix (Fin 2) Unit) : Bool :=
  bothDone s && s.broker.sessions.all fun p ↦ decide
    (∀ i, ¬ ((p i).inUse = true ∧ (p i).clientId = [0x62]))

end Sample

/-- The statement for a connection that is freed before the session is looked up. -/
theorem handed_over_early : ∃ (s₀ s : Threads Config.posix (Fin 2) Unit) (n : Threads.FreedAs),
    Threads.ReachBy (fun _ _ ↦ True) s₀ ∧ s₀.TakesOver 0 1 [0x61] ∧
      Observer.Reach (Threads.takingOver _ _ _ [0x61])
        (fun s _ e ↦ s.OneConnect 1 [0x61] e ∧ s.HandsOver 0 1 [0x61] e) s₀ none s n ∧
      s.conn 1 = .loop ∧ ∃ clean subs, n = some (clean, subs) ∧
        (∃ i x, SessionAt s.broker.sessions [0x61] i x ∧ x.offline = false) ∧
        (clean = false → s.broker.table.subsOf 1 = subs) := by
  obtain ⟨s₀, s, n, hreach, hstart, hrun, hlast⟩ := Sample.exists_of_takeoverRun (by simp)
    (show Sample.takeoverRun [0x61] Sample.secondRun Sample.earlyFree
      (fun s e ↦ Sample.noOther s e && Sample.inOrder [0x61] s e)
      (fun s _ ↦ decide (s.conn 1 = .loop)) = true by decide +kernel)
  have hrun' : Observer.Reach (Threads.takingOver _ _ _ [0x61])
      (fun s _ e ↦ s.OneConnect 1 [0x61] e ∧ s.HandsOver 0 1 [0x61] e) s₀ none s n := by
    refine hrun.mono fun s _ e h ↦ ?_
    obtain ⟨hone, horder⟩ := Bool.and_eq_true_iff.mp h
    exact ⟨Sample.oneConnect_of_noOther hone, Sample.handsOver_of_inOrder horder⟩
  have hpc := of_decide_eq_true hlast
  exact ⟨s₀, s, n, hreach, hstart, hrun', hpc, Threads.handed_over hreach hstart hrun' hpc⟩

/-- Where `handle_connect` returns before the old connection is freed, a persistent one leaves
the session marked offline and nothing subscribed, and one with clean session deletes it. -/
theorem freed_late :
    (∃ (s₀ s : Threads Config.posix (Fin 2) Unit) (n : Threads.FreedAs),
      Threads.ReachBy (fun _ _ ↦ True) s₀ ∧ s₀.TakesOver 0 1 [0x61] ∧
        Observer.Reach (Threads.takingOver _ _ _ [0x61]) (fun s _ e ↦ s.OneConnect 1 [0x61] e)
          s₀ none s n ∧
        s.conn 0 = .idle ∧ s.conn 1 = .loop ∧ (s.broker.clients 1).state = .connected ∧
        (∃ i x, SessionAt s.broker.sessions [0x61] i x ∧ x.offline = true) ∧
        n = some (false, {([0x74], 2)}) ∧ s.broker.table.subsOf 1 = ∅) ∧
    ∃ (s₀ s : Threads Config.posix (Fin 2) Unit) (n : Threads.FreedAs),
      Threads.ReachBy (fun _ _ ↦ True) s₀ ∧ s₀.TakesOver 0 1 [0x62] ∧
        Observer.Reach (Threads.takingOver _ _ _ [0x62]) (fun s _ e ↦ s.OneConnect 1 [0x62] e)
          s₀ none s n ∧
        s.conn 0 = .idle ∧ s.conn 1 = .loop ∧ (s.broker.clients 1).state = .connected ∧
        ∀ i x, ¬ SessionAt s.broker.sessions [0x62] i x := by
  refine ⟨?_, ?_⟩
  · obtain ⟨s₀, s, n, hreach, hstart, hrun, hlast⟩ := Sample.exists_of_takeoverRun (by simp)
      (show Sample.takeoverRun [0x61] Sample.secondRun (Sample.lateFree 8 15) Sample.noOther
        Sample.leftOffline = true by decide +kernel)
    simp only [Sample.leftOffline, Sample.bothDone, Bool.and_eq_true, decide_eq_true_eq] at hlast
    obtain ⟨⟨⟨hold, hnew, hup⟩, hsession⟩, hn, hnone⟩ := hlast
    obtain ⟨p, hp, hsession⟩ := (Option.any_eq_true _ _).mp hsession
    obtain ⟨i, hoff, huse, hid⟩ := of_decide_eq_true hsession
    exact ⟨s₀, s, n, hreach, hstart, hrun.mono fun _ _ _ ↦ Sample.oneConnect_of_noOther, hold, hnew,
      hup, ⟨i, p i, ⟨p, hp, rfl, huse, hid⟩, hoff⟩, hn, hnone⟩
  · obtain ⟨s₀, s, n, hreach, hstart, hrun, hlast⟩ := Sample.exists_of_takeoverRun (by simp)
      (show Sample.takeoverRun [0x62] Sample.cleanSecondRun (Sample.lateFree 5 7) Sample.noOther
        (fun s _ ↦ Sample.leftWithout s) = true by decide +kernel)
    simp only [Sample.leftWithout, Sample.bothDone, Bool.and_eq_true, decide_eq_true_eq] at hlast
    obtain ⟨⟨hold, hnew, hup⟩, hnone⟩ := hlast
    refine ⟨s₀, s, n, hreach, hstart, hrun.mono fun _ _ _ ↦ Sample.oneConnect_of_noOther, hold,
      hnew, hup, ?_⟩
    rintro i x ⟨p, hp, rfl, huse, hid⟩
    exact of_decide_eq_true ((Option.all_eq_true _ _).mp hnone p hp) i ⟨huse, hid⟩

end MqttBroker
