import MqttBroker.Client.Sessions
import MqttBroker.Lib.Observer

/-!
# Subscriptions over a reconnect

The subscriptions of a persistent client go from the table into its session when
it disconnects, and back at its next CONNECT.  Both copies are made while other
threads run.
-/

namespace MqttBroker

open Relation

variable {cfg : Config} {κ σ : Type}

/-! ## The two copies -/

/-- `l` lists the subscriptions `subs`, and a session can store it. -/
structure Lists (l : List (CStr × UInt8)) (subs : Finset (CStr × UInt8)) : Prop where
  eq : l.toFinset = subs
  length_le : l.length ≤ SESSION_SUB_MAX
  once : (l.map Prod.fst).Nodup
  short : ∀ x ∈ l, x.1.length < MQTT_TOPIC_MAX

/-- `topic_get_client_subs` misses nothing if the client has few subscriptions. -/
theorem lists_topicGetClientSubs [DecidableEq κ] {t : TopicTable cfg κ} (ht : t.Distinct) {c : κ}
    (hcard : (t.heldBy c).card ≤ SESSION_SUB_MAX) :
    Lists (t.topicGetClientSubs c SESSION_SUB_MAX) (t.subsOf c) := by
  set slots := (List.finRange cfg.topicMaxSubs).filter fun i ↦
    (t.subs i).inUse && (t.subs i).client = c with hslots
  have hnodup : slots.Nodup := (List.nodup_finRange _).filter _
  have hheld : slots.toFinset = t.heldBy c := by
    ext i
    simp [hslots, TopicTable.heldBy]
  have hlen : slots.length ≤ SESSION_SUB_MAX := by
    rwa [← List.toFinset_card_of_nodup hnodup, hheld]
  have hall : t.topicGetClientSubs c SESSION_SUB_MAX =
      slots.map fun i ↦ ((t.subs i).filter, (t.subs i).qos) := by
    rw [TopicTable.topicGetClientSubs, ← hslots, List.take_of_length_le hlen]
  have hsub : ∀ i ∈ slots, t.sub i = some ⟨c, (t.subs i).filter, (t.subs i).qos⟩ := by
    intro i hi
    have hin : (t.subs i).inUse = true ∧ (t.subs i).client = c := by
      simpa [hslots] using hi
    exact TopicTable.sub_eq_some_iff.mpr ⟨hin.1, hin.2, rfl, rfl⟩
  rw [hall]
  refine ⟨?_, by simpa using hlen, ?_, fun x hx ↦ ?_⟩
  · rw [TopicTable.subsOf, ← hheld]
    ext x
    simp
  · rw [List.map_map]
    exact hnodup.map_on fun i hi j hj hij ↦ ht.once i j _ _ (hsub i hi) (hsub j hj) rfl hij
  · obtain ⟨i, hi, rfl⟩ := List.mem_map.mp hx
    exact ht.short i _ (hsub i hi)

/-- The session stores the list. -/
def Session.Saves (s : Session) (l : List (CStr × UInt8)) : Prop :=
  s.subCount = l.length ∧ ∀ n (hl : n < l.length) (hn : n < SESSION_SUB_MAX),
    s.subFilters ⟨n, hn⟩ = l[n].1 ∧ s.subQos ⟨n, hn⟩ = l[n].2

theorem Lists.saves {l : List (CStr × UInt8)} {subs : Finset (CStr × UInt8)} (h : Lists l subs)
    (s : Session) : (s.saveSubs l).Saves l := by
  refine ⟨min_eq_left h.length_le, fun n hl hn ↦ ?_⟩
  have hshort := h.short l[n] (List.getElem_mem hl)
  have htake : l[n].1.take (MQTT_TOPIC_MAX - 1) = l[n].1 :=
    List.take_of_length_le (by simp only [MQTT_TOPIC_MAX] at hshort ⊢; omega)
  simp [Session.saveSubs, List.getElem?_eq_getElem hl, htake]

theorem Session.SameSubs.saves {s s' : Session} (h : s.SameSubs s') {l : List (CStr × UInt8)}
    (hs : s.Saves l) : s'.Saves l := by
  refine ⟨h.subCount.trans hs.1, fun n hl hn ↦ ?_⟩
  rw [h.subFilters, h.subQos]
  exact hs.2 n hl hn

/-- A new filter is added if there is room. -/
theorem subsOf_topicSubscribe [DecidableEq κ] {t : TopicTable cfg κ} {c : κ} {f : CStr} {q : UInt8}
    (hroom : t.findFree ≠ none) (hnew : ∀ q', (f, q') ∉ t.subsOf c)
    (hshort : f.length < MQTT_TOPIC_MAX) :
    (t.topicSubscribe c f q).1.subsOf c = insert (f, q) (t.subsOf c) := by
  have htake : f.take (MQTT_TOPIC_MAX - 1) = f :=
    List.take_of_length_le (by simp only [MQTT_TOPIC_MAX] at hshort ⊢; omega)
  rcases t.topicSubscribe_cases c f q with ⟨i, hfind, -⟩ | ⟨-, ⟨i, hfree, heq⟩ | ⟨hfull, -⟩⟩
  · exact absurd (TopicTable.mem_subsOf.mpr ⟨i, TopicTable.findSub_some hfind⟩) (hnew _)
  · have hnone : t.sub i = none := TopicTable.sub_eq_none_iff.mpr (TopicTable.findFree_free hfree)
    ext ⟨f', q'⟩
    rw [Finset.mem_insert, TopicTable.mem_subsOf, TopicTable.mem_subsOf, heq, htake]
    constructor
    · rintro ⟨j, hj⟩
      by_cases hji : j = i
      · subst hji
        rw [Function.update_self] at hj
        cases hj
        exact Or.inl rfl
      · rw [Function.update_of_ne hji] at hj
        exact Or.inr ⟨j, hj⟩
    · rintro (heq' | ⟨j, hj⟩)
      · cases heq'
        exact ⟨i, Function.update_self _ _ _⟩
      · have hji : j ≠ i := by
          rintro rfl
          rw [hnone] at hj
          cases hj
        exact ⟨j, by rw [Function.update_of_ne hji, hj]⟩
  · exact absurd hfull hroom

/-! ## The way of a client id -/

/-- The session of a client id is in slot `i` and stores the list. -/
def KeptAt (pool : SessionPool cfg) (id : CStr) (i : SessionSlot cfg)
    (l : List (CStr × UInt8)) : Prop :=
  ∃ s, SessionAt pool id i s ∧ s.Saves l

/-- `client_free` has not stored the subscriptions yet. -/
def ConnPc.Unsaved : ConnPc cfg → Prop
  | .closeFd | .will | .clearWill | .collect | .lookup _ | .saveSubs _ _ => True
  | _ => False

instance : DecidablePred (@ConnPc.Unsaved cfg) := fun pc ↦ by
  cases pc <;> first | exact isTrue trivial | exact isFalse id

namespace Threads

/-- An observer who writes nothing down. -/
def silent (cfg : Config) (κ σ : Type) [DecidableEq κ] [DecidableEq σ] :
    Observer.System (Threads cfg κ σ) (ThreadEvent κ σ) Unit where
  step := Threads.step
  note _ _ _ := ()

/-- The connection in slot `k` has the client id or is about to take it. -/
def Bears (s : Threads cfg κ σ) (k : κ) (id : CStr) : Prop :=
  s.conn k ≠ .idle ∧ (s.broker.clients k).clientId = id ∨
    ∃ conn, s.conn k = .assignId conn ∧ conn.clientId = id

variable [DecidableEq κ]

/-- A persistent client that has few enough subscriptions disconnects, and no other
connection has its id. -/
structure Disconnects (s : Threads cfg κ σ) (k : κ) (id : CStr) : Prop where
  pc : s.conn k = .closeFd
  clientId : (s.broker.clients k).clientId = id
  named : id ≠ []
  persistent : (s.broker.clients k).cleanSession = false
  few : (s.broker.table.heldBy k).card ≤ SESSION_SUB_MAX
  alone : ∀ j, j ≠ k → ¬ s.Bears j id

/-- There is a session slot for the client, its next CONNECT is without clean
session, and `handle_connect` has not returned from it. -/
structure Undisturbed (id : CStr) (s : Threads cfg κ σ) (e : ThreadEvent κ σ) : Prop where
  slot : ∀ k env l, e = .next k env → s.conn k = .lookup l →
    (s.broker.clients k).clientId = id → SlotAvailable s.broker.sessions env.callocOk id
  connect : ∀ k env conn, e = .next k env → s.conn k = .takeover conn → conn.clientId = id →
    conn.cleanSession = false
  handled : ∀ k env, e = .next k env → s.conn k = .loop → (s.broker.clients k).clientId ≠ id

/-- The session is looked up after it has been stored, no other connection's
subscriptions are stored to it, and the table has room for those it restores. -/
structure Restorable (id : CStr) (s : Threads cfg κ σ) (e : ThreadEvent κ σ) : Prop where
  saved : ∀ k env conn, e = .next k env → s.conn k = .openSession conn → conn.clientId = id →
    ∀ j, (s.broker.clients j).clientId = id → ¬ (s.conn j).Unsaved
  own : ∀ k env i l, e = .next k env → s.conn k = .saveSubs i l →
    (s.broker.clients k).clientId ≠ id → ∀ x, ¬ SessionAt s.broker.sessions id i x
  room : ∀ k env i n, e = .next k env → s.conn k = .restore i n →
    (s.broker.clients k).clientId = id → n < (s.broker.session i).subCount →
    s.broker.table.findFree ≠ none

/-- Where the old connection stands until its subscriptions are stored. -/
def Leaving (b : Broker cfg κ) (k : κ) (id : CStr) (subs : Finset (CStr × UInt8)) :
    ConnPc cfg → Prop
  | .closeFd | .will | .clearWill | .collect =>
      (b.table.heldBy k).card ≤ SESSION_SUB_MAX ∧ b.table.subsOf k = subs
  | .lookup l => Lists l subs
  | .saveSubs i l => Lists l subs ∧ ∃ x, SessionAt b.sessions id i x
  | _ => False

/-- Where the old connection and a new one stand from then on. -/
def Returning (b : Broker cfg κ) (k : κ) (l : List (CStr × UInt8)) (i : SessionSlot cfg) :
    ConnPc cfg → Prop
  | .saveInflight _ _ | .unsubscribe | .delete | .release =>
      (b.clients k).cleanSession = false
  | .assignId conn | .assignRest conn | .openSession conn => conn.cleanSession = false
  | .connack sess present => sess = some i ∧ present = true
  | .restore j n => j = i ∧ n ≤ l.length ∧ b.table.subsOf k = (l.take n).toFinset
  | .online _ | .drain _ | .loop => b.table.subsOf k = l.toFinset
  | _ => False

/-- A new connection before its session is looked up. -/
def Arriving : ConnPc cfg → Prop
  | .assignId conn | .assignRest conn | .openSession conn => conn.cleanSession = false
  | _ => False

/-- The subscriptions are with the old connection or in the session of the client id. -/
def OnTheWay (s : Threads cfg κ σ) (id : CStr) (subs : Finset (CStr × UInt8)) : Prop :=
  (∃ k, (s.broker.clients k).clientId = id ∧ (s.broker.clients k).cleanSession = false ∧
      Leaving s.broker k id subs (s.conn k) ∧
      ∀ j, j ≠ k → s.Bears j id → Arriving (s.conn j)) ∨
    ∃ l i, Lists l subs ∧ KeptAt s.broker.sessions id i l ∧
      ∀ j, s.Bears j id → Returning s.broker j l i (s.conn j)

variable [DecidableEq σ] {s s' : Threads cfg κ σ} {e : ThreadEvent κ σ} {id : CStr}

/-- A connection comes to have a client id by a CONNECT with it. -/
theorem bears_step (ht : s.Tidy) (h : s.step e = some s') (hid : id ≠ []) {k : κ}
    (hb : s'.Bears k id) : s.Bears k id ∨
      ∃ env conn, e = .next k env ∧ s.conn k = .takeover conn ∧ conn.clientId = id := by
  by_cases hk : e.slot = some k
  · have hown := own_cases h hk
    unfold Bears at hb
    generalize s'.broker.clients k = c, s'.conn k = pc at hown hb
    have hsame : c.clientId = (s.broker.clients k).clientId → (∀ conn, pc ≠ .assignId conn) →
        s.conn k ≠ .idle → s.Bears k id := by
      intro hc hne hidle
      rcases hb with ⟨-, hcid⟩ | ⟨conn, hpc, -⟩
      · exact Or.inl ⟨hidle, hc ▸ hcid⟩
      · exact absurd hpc (hne conn)
    cases hown with
    | alloc fd =>
        rcases hb with ⟨-, hcid⟩ | ⟨conn, hpc, -⟩
        · exact absurd hcid.symm hid
        · cases hpc
    | notConnect env pkt hpc | connect env pkt conn hpc =>
        exact Or.inl (hsame rfl (by simp) (by simp [hpc]))
    | reject env pkt code c hpc htype hcheck hstays =>
        exact Or.inl (hsame hstays.clientId (by simp) (by simp [hpc]))
    | leave hpc =>
        exact Or.inl (hsame rfl (by simp) (by rcases hpc with hpc | hpc <;> simp [hpc]))
    | packet env pkt c pc hpc hstays hpc' =>
        refine Or.inl (hsame hstays.clientId ?_ (by simp [hpc]))
        rcases hpc' with rfl | rfl | ⟨pub, ack, rfl⟩ <;> simp
    | tick env c hpc hstays => exact Or.inl (hsame hstays.clientId (by simp) (by simp [hpc]))
    | publish env pub ack c hpc hstays =>
        exact Or.inl (hsame hstays.clientId (by simp) (by simp [hpc]))
    | will env c hpc hwill hstays => exact Or.inl (hsame hstays.clientId (by simp) (by simp [hpc]))
    | next env h' pc hnext =>
        have hidle : s.conn k ≠ .idle := by
          intro hpc
          rw [hpc] at hnext
          cases hnext
        rcases hb with ⟨-, hcid⟩ | ⟨conn, rfl, hcid⟩
        · rcases connStep_stays hnext with hstays | ⟨conn, hat, hc⟩ | ⟨conn, -, hc⟩ | ⟨-, hc⟩
          · exact Or.inl (Or.inl ⟨hidle, hstays.clientId.symm.trans hcid⟩)
          · rw [hc] at hcid
            refine Or.inl (Or.inr ⟨conn, hat, ?_⟩)
            rw [← hcid]
            exact (take_clientId (ht.conns k conn (by rw [hat]; rfl))).symm
          · rw [hc] at hcid
            exact Or.inl (Or.inl ⟨hidle, hcid⟩)
          · rw [hc] at hcid
            exact Or.inl (Or.inl ⟨hidle, hcid⟩)
        · exact Or.inr ⟨env, conn, rfl, (connStep_pc hnext conn).2 rfl, hcid⟩
  · have huntouched := step_untouched h hk
    refine Or.inl ?_
    unfold Bears at hb ⊢
    rwa [huntouched.conn, huntouched.client.clientId] at hb

/-- A session stays where it is as long as it is neither deleted nor overwritten. -/
theorem session_step (ht : s.Tidy) (h : s.step e = some s') {i : SessionSlot cfg} {x : Session}
    (hx : SessionAt s.broker.sessions id i x)
    (hopen : ∀ k env conn, e = .next k env → s.conn k = .openSession conn → conn.clientId = id →
      conn.cleanSession = false)
    (hsave : ∀ k env j l, e = .next k env → s.conn k = .saveSubs j l → j ≠ i)
    (hdelete : ∀ k env, e = .next k env → s.conn k = .delete →
      (s.broker.clients k).clientId = id → (s.broker.clients k).cleanSession = false) :
    ∃ x', SessionAt s'.broker.sessions id i x' ∧ x.SameSubs x' := by
  have hkept : ∀ {pool : SessionPool cfg}, PoolKept id s.broker.sessions pool →
      ∃ x', SessionAt pool id i x' ∧ x.SameSubs x' := by
    intro pool hpool
    obtain ⟨x', hx', hgrow⟩ := hpool.forth i x hx
    obtain ⟨-, -, -, huse, hcid⟩ := hx
    have hx'' := hx'
    obtain ⟨-, -, -, huse', hcid'⟩ := hx''
    exact ⟨x', hx', hcid'.trans hcid.symm, huse'.trans huse.symm, hgrow.subCount,
      hgrow.subFilters, hgrow.subQos⟩
  have hfound : ∀ callocOk, (sessionFindOrCreate s.broker.sessions callocOk id).1 =
      s.broker.sessions := by
    intro callocOk
    rcases sessionFindOrCreate_cases s.broker.sessions callocOk id with
      ⟨j, y, -, heq⟩ | ⟨hnone, -⟩
    · rw [heq]
    · exact absurd hx (hnone i x)
  rcases pool_cases h with hsame | ⟨k, env, he, hcase⟩
  · exact hsame.forth hx
  · generalize s'.broker.sessions = pool at hcase ⊢
    cases hcase with
    | same hsame => exact hsame.forth hx
    | openSession conn hpc =>
        have hlen := ht.conns k conn (by rw [hpc]; rfl)
        unfold connectSession
        by_cases hcid : conn.clientId = id
        · rw [if_neg (by simp [hopen k env conn he hpc hcid]), hcid, hfound]
          exact ⟨x, hx, .refl x⟩
        · split_ifs
          · exact hkept (sessionDelete_kept _ hcid)
          · exact hkept (sessionFindOrCreate_kept _ _ hlen hcid)
    | lookup subs hpc =>
        by_cases hcid : (s.broker.clients k).clientId = id
        · rw [hcid, hfound]
          exact ⟨x, hx, .refl x⟩
        · exact hkept (sessionFindOrCreate_kept _ _ (ht.ids k) hcid)
    | saveSubs j l hpc =>
        exact ⟨x, (sessionAt_updateSession_ne (hsave k env j l he hpc).symm _ x).mpr hx, .refl x⟩
    | delete hpc hclean =>
        refine hkept (sessionDelete_kept _ fun hcid ↦ ?_)
        rw [hdelete k env he hpc hcid] at hclean
        cases hclean

/-- The places from which a thread goes on by itself. -/
def Runs : ConnPc cfg → Prop
  | .idle | .waiting | .recv | .publish _ _ | .will => False
  | _ => True

theorem own_next [Inhabited κ] (hset : s.Settled) (h : s.step e = some s') {k : κ}
    (hk : e.slot = some k) (hruns : Runs (s.conn k)) :
    ∃ env h' pc, e = .next k env ∧ connStep env s.broker k (s.conn k) = some (h', pc) ∧
      s' = s.goTo k h'.broker pc := by
  cases step_cases h with
  | alloc j fd hfree =>
      cases hk
      rw [hset.free k hfree] at hruns
      exact hruns.elim
  | notConnect j env pkt hpc | connect j env pkt conn hpc | reject j env pkt code hpc
  | late j env pkt hpc | publishPacket j env pkt b pub ack hpc | packet j env pkt h' hpc
  | tick j env hpc | publish j env pub ack s' hpc | will j env s' hpc =>
      cases hk
      rw [hpc] at hruns
      exact hruns.elim
  | leave j hpc =>
      cases hk
      rcases hpc with hpc | hpc <;> rw [hpc] at hruns <;> exact hruns.elim
  | next j env h' pc hjob hnext => cases hk; exact ⟨env, h', pc, rfl, hnext, rfl⟩
  | foreign | send | offline => cases hk

/-! ### The steps of the others -/

theorem arriving_step [Inhabited κ] (hset : s.Settled) (h : s.step e = some s') {k : κ}
    (harr : Arriving (s.conn k)) (hopen : ∀ env conn, e = .next k env →
      s.conn k ≠ .openSession conn) : Arriving (s'.conn k) := by
  by_cases hk : e.slot = some k
  · have hruns : Runs (s.conn k) := by
      cases hpc : s.conn k with
      | assignId | assignRest | openSession => trivial
      | _ => rw [hpc] at harr; exact harr.elim
    obtain ⟨env, h', pc, rfl, hnext, rfl⟩ := own_next hset h hk hruns
    rw [goTo_conn]
    cases hpc : s.conn k with
    | assignId conn | assignRest conn =>
        rw [hpc] at hnext harr
        cases hnext
        exact harr
    | openSession conn => exact absurd hpc (hopen env conn rfl)
    | _ => rw [hpc] at harr; exact harr.elim
  · rwa [(step_untouched h hk).conn]

theorem leaving_other (h : s.step e = some s') {k : κ} (hk : e.slot ≠ some k)
    {subs : Finset (CStr × UInt8)} (hleave : Leaving s.broker k id subs (s.conn k))
    (hsession : ∀ i x, SessionAt s.broker.sessions id i x →
      ∃ x', SessionAt s'.broker.sessions id i x' ∧ x.SameSubs x') :
    Leaving s'.broker k id subs (s'.conn k) := by
  rw [(step_untouched h hk).conn]
  have hsame := sameFor_step h hk
  cases hpc : s.conn k with
  | closeFd | will | clearWill | collect =>
      rw [hpc] at hleave
      obtain ⟨hcard, hsubs⟩ := hleave
      exact ⟨hsame.heldBy ▸ hcard, hsame.subsOf.trans hsubs⟩
  | lookup l => rwa [hpc] at hleave
  | saveSubs i l =>
      rw [hpc] at hleave
      obtain ⟨hl, x, hx⟩ := hleave
      obtain ⟨x', hx', -⟩ := hsession i x hx
      exact ⟨hl, x', hx'⟩
  | _ => rw [hpc] at hleave; exact hleave.elim

theorem returning_other (h : s.step e = some s') {k : κ} (hk : e.slot ≠ some k)
    {l : List (CStr × UInt8)} {i : SessionSlot cfg}
    (hret : Returning s.broker k l i (s.conn k)) : Returning s'.broker k l i (s'.conn k) := by
  have huntouched := step_untouched h hk
  have hsame := sameFor_step h hk
  rw [huntouched.conn]
  cases hpc : s.conn k with
  | saveInflight | unsubscribe | delete | release =>
      rw [hpc] at hret
      exact huntouched.client.cleanSession.trans hret
  | assignId | assignRest | openSession | connack => rwa [hpc] at hret
  | restore j n =>
      rw [hpc] at hret
      exact ⟨hret.1, hret.2.1, hsame.subsOf.trans hret.2.2⟩
  | online | drain | loop =>
      rw [hpc] at hret
      exact hsame.subsOf.trans hret
  | _ => rw [hpc] at hret; exact hret.elim

/-! ### The steps of the old connection -/

theorem leaving_own [Inhabited κ] (ht : s.Tidy) (hset : s.Settled) (hu : s.Undisturbed id e)
    (h : s.step e = some s') {k : κ} (hk : e.slot = some k)
    (hcid : (s.broker.clients k).clientId = id)
    (hclean : (s.broker.clients k).cleanSession = false) {subs : Finset (CStr × UInt8)}
    (hleave : Leaving s.broker k id subs (s.conn k)) :
    ((s'.broker.clients k).clientId = id ∧ (s'.broker.clients k).cleanSession = false) ∧
      (Leaving s'.broker k id subs (s'.conn k) ∨ ∃ l i, Lists l subs ∧
        KeptAt s'.broker.sessions id i l ∧ s'.conn k = .saveInflight i 0) := by
  have hself : ∀ f : Client → Client, (s.broker.updateClient k f).clients k =
      f (s.broker.clients k) := fun _ ↦ Function.update_self _ _ _
  by_cases hwill : s.conn k = .will
  · rw [hwill] at hleave
    cases step_cases h with
    | alloc j fd hfree =>
        cases hk
        rw [hset.free k hfree] at hwill
        cases hwill
    | notConnect j env pkt hpc | connect j env pkt conn hpc | reject j env pkt code hpc
    | late j env pkt hpc | publishPacket j env pkt b pub ack hpc | packet j env pkt h' hpc
    | tick j env hpc | publish j env pub ack s' hpc =>
        cases hk
        rw [hpc] at hwill
        cases hwill
    | leave j hpc =>
        cases hk
        rcases hpc with hpc | hpc <;> rw [hpc] at hwill <;> cases hwill
    | next j env h' pc hjob hnext =>
        cases hk
        rw [hwill] at hnext
        simp only [connStep] at hnext
        split_ifs at hnext
        cases hnext
        rw [goTo_conn]
        exact ⟨⟨hcid, hclean⟩, Or.inl hleave⟩
    | will j env s' hpc hhas hb =>
        cases hk
        rw [(begin_frame hb).1, goTo_conn]
        obtain ⟨r, hlocked, rfl⟩ := Option.map_eq_some_iff.mp hb
        have hsent := sentTo_rule.locked hlocked k
        have htable : r.1.table = s.broker.table := (publishLocked_serve hlocked).1
        refine ⟨⟨hsent.clientId.trans hcid, hsent.cleanSession.trans hclean⟩, Or.inl ?_⟩
        unfold Leaving
        rwa [htable]
    | foreign | send | offline => cases hk
  · have hruns : Runs (s.conn k) := by
      cases hpc : s.conn k with
      | will => exact absurd hpc hwill
      | closeFd | clearWill | collect | lookup | saveSubs => trivial
      | _ => rw [hpc] at hleave; exact hleave.elim
    obtain ⟨env, h', pc, rfl, hnext, rfl⟩ := own_next hset h hk hruns
    rw [goTo_conn, goTo_broker]
    cases hpc : s.conn k with
    | closeFd =>
        rw [hpc] at hnext hleave
        cases hnext
        dsimp only
        rw [hself]
        exact ⟨⟨hcid, hclean⟩, Or.inl hleave⟩
    | clearWill =>
        rw [hpc] at hnext hleave
        cases hnext
        dsimp only
        rw [hself fun c ↦ { c with hasWill := false }]
        exact ⟨⟨hcid, hclean⟩, Or.inl hleave⟩
    | collect =>
        rw [hpc] at hnext hleave
        cases hnext
        refine ⟨⟨hcid, hclean⟩, Or.inl ?_⟩
        rw [if_neg (by simp [hclean])]
        obtain ⟨hcard, rfl⟩ := hleave
        exact lists_topicGetClientSubs ht.table hcard
    | lookup l =>
        rw [hpc] at hleave
        have hslot := (hu.slot k env l rfl hpc hcid).lookup
        rw [hpc] at hnext
        cases hnext
        refine ⟨⟨hcid, hclean⟩, Or.inl ?_⟩
        rw [hcid]
        have hlen : id.length < MQTT_CLIENT_ID_MAX := hcid ▸ ht.ids k
        rcases sessionFindOrCreate_cases s.broker.sessions env.callocOk id with
          ⟨i, x, hx, heq⟩ | ⟨-, ⟨p, i, -, -, heq⟩ | ⟨pool', -, heq⟩⟩
        · rw [heq]
          exact ⟨hleave, x, hx⟩
        · rw [heq]
          exact ⟨hleave, freshSession id, sessionAt_some.mpr ⟨by simp, rfl, take_clientId hlen⟩⟩
        · rw [heq] at hslot
          exact absurd rfl hslot
    | saveSubs i l =>
        rw [hpc] at hleave hnext
        cases hnext
        obtain ⟨hl, x, hx⟩ := hleave
        refine ⟨⟨hcid, hclean⟩, Or.inr ⟨l, i, hl, ⟨x.saveSubs l, ?_, hl.saves x⟩, rfl⟩⟩
        have hx' := hx
        obtain ⟨-, -, -, huse, hxid⟩ := hx'
        exact sessionAt_updateSession hx ⟨huse, hxid⟩
    | _ => rw [hpc] at hleave hruns; first | exact hleave.elim | exact hruns.elim

/-! ### The steps of a connection with the client id -/

theorem returning_restore {i : SessionSlot cfg} {n : ℕ} {k : κ} {l : List (CStr × UInt8)}
    {subs : Finset (CStr × UInt8)} {b : Broker cfg κ} (hl : Lists l subs)
    (hx : (b.session i).Saves l) (hsubs : b.table.subsOf k = (l.take n).toFinset)
    (hn : n < SESSION_SUB_MAX) (hlt : n < (b.session i).subCount) (hroom : b.table.findFree ≠ none) :
    (restoreOne k i ⟨b, []⟩ ⟨n, hn⟩).broker.table.subsOf k = (l.take (n + 1)).toFinset := by
  have hlen : n < l.length := hx.1 ▸ hlt
  obtain ⟨hfilter, hqos⟩ := hx.2 n hlen hn
  have hnew : ∀ q, (l[n].1, q) ∉ b.table.subsOf k := by
    intro q hmem
    rw [hsubs, List.mem_toFinset] at hmem
    obtain ⟨m, hm, heq⟩ := List.getElem_of_mem hmem
    rw [List.length_take] at hm
    rw [List.getElem_take] at heq
    have hm' : m < (l.map Prod.fst).length := by
      rw [List.length_map]
      omega
    have hn' : n < (l.map Prod.fst).length := by rwa [List.length_map]
    have hfst : (l.map Prod.fst)[m] = (l.map Prod.fst)[n] := by
      simp [heq]
    have hmn := (hl.once.getElem_inj_iff).mp hfst
    omega
  unfold restoreOne
  rw [if_pos hlt]
  dsimp only
  rw [hfilter, hqos, subsOf_topicSubscribe hroom hnew (hl.short _ (List.getElem_mem hlen)), hsubs,
    List.take_succ_eq_append_getElem hlen, List.toFinset_append]
  ext x
  simp [or_comm]

theorem returning_own [Inhabited κ] (ht : s.Tidy) (hset : s.Settled)
    (hbare : ∀ k, (s.conn k).Bare → s.broker.table.NoneOf k) (hu : s.Undisturbed id e)
    (hr : s.Restorable id e) (h : s.step e = some s') {k : κ} (hk : e.slot = some k)
    {l : List (CStr × UInt8)} {subs : Finset (CStr × UInt8)} (hl : Lists l subs)
    {i : SessionSlot cfg} (hkept : KeptAt s.broker.sessions id i l) (hb : s.Bears k id)
    (hret : Returning s.broker k l i (s.conn k)) (hb' : s'.Bears k id) :
    Returning s'.broker k l i (s'.conn k) := by
  obtain ⟨x, hx, hsaves⟩ := hkept
  have hcid : (∀ conn, s.conn k ≠ .assignId conn) → (s.broker.clients k).clientId = id :=
    fun hne ↦ hb.elim (·.2) fun ⟨conn, hpc, _⟩ ↦ absurd hpc (hne conn)
  have hruns : Runs (s.conn k) := by
    cases hpc : s.conn k with
    | idle | waiting | recv | publish | will => rw [hpc] at hret; exact hret.elim
    | _ => trivial
  obtain ⟨env, h', pc, rfl, hnext, rfl⟩ := own_next hset h hk hruns
  unfold Bears at hb'
  rw [goTo_conn, goTo_broker] at hb' ⊢
  cases hpc : s.conn k with
  | saveInflight j n =>
      rw [hpc] at hret hnext
      simp only [connStep] at hnext
      split_ifs at hnext <;> cases hnext <;> exact hret
  | unsubscribe =>
      rw [hpc] at hret hnext
      obtain ⟨r, -, heq⟩ := Option.map_eq_some_iff.mp hnext
      cases heq
      split_ifs <;> exact hret
  | delete =>
      rw [hpc] at hret hnext
      cases hnext
      dsimp only
      split_ifs <;> exact hret
  | release =>
      rw [hpc] at hnext
      cases hnext
      rcases hb' with ⟨hidle, -⟩ | ⟨conn, hassign, -⟩
      · exact absurd rfl hidle
      · cases hassign
  | assignId conn | assignRest conn =>
      rw [hpc] at hret hnext
      cases hnext
      exact hret
  | openSession conn =>
      have hconn : conn.clientId = id :=
        (ht.named k conn (Or.inr hpc)).symm.trans (hcid (by simp [hpc]))
      rw [hpc] at hret hnext
      have hclean : conn.cleanSession = false := hret
      cases hnext
      dsimp only
      unfold connectSession
      rw [if_neg (by simp [hclean]), hconn]
      rcases sessionFindOrCreate_cases s.broker.sessions env.callocOk id with
        ⟨j, y, hy, heq⟩ | ⟨hnone, -⟩
      · rw [heq]
        exact ⟨congrArg some (ht.one id j i y x hy hx), rfl⟩
      · exact absurd hx (hnone i x)
  | connack sess present =>
      have hnone := hbare k (by rw [hpc]; trivial)
      rw [hpc] at hret hnext
      obtain ⟨rfl, rfl⟩ := hret
      cases hnext
      refine ⟨rfl, Nat.zero_le _, ?_⟩
      exact TopicTable.subsOf_noneOf hnone
  | restore j n =>
      have hfree := hr.room k env j n rfl hpc (hcid (by simp [hpc]))
      rw [hpc] at hret hnext
      obtain ⟨rfl, hn, hsubs⟩ := hret
      simp only [connStep] at hnext
      rw [← hx.session_eq] at hsaves
      split_ifs at hnext with hlt
      · cases hnext
        exact ⟨rfl, hsaves.1 ▸ hlt.2, returning_restore hl hsaves hsubs hlt.1 hlt.2 (hfree hlt.2)⟩
      · cases hnext
        have hlast : n = l.length := by
          have hcount := hsaves.1
          have hmax := hl.length_le
          omega
        rwa [hlast, List.take_length] at hsubs
  | online j | drain j =>
      rw [hpc] at hret hnext
      cases hnext
      exact hret
  | loop => exact absurd (hcid (by simp [hpc])) (hu.handled k env rfl hpc)
  | _ => rw [hpc] at hret; exact hret.elim

/-! ### The steps of all -/

theorem takeover_next [Inhabited κ] (hset : s.Settled) {k : κ} {env : Env κ} {conn : MqttConnect}
    (h : s.step (.next k env) = some s') (hpc : s.conn k = .takeover conn) :
    s'.conn k = .assignId conn := by
  obtain ⟨env', h', pc, -, hnext, rfl⟩ := own_next hset h rfl (by rw [hpc]; trivial)
  rw [hpc] at hnext
  cases hnext
  exact goTo_conn _ _ _ _

omit [DecidableEq κ] [DecidableEq σ] in
theorem Tidy.bears_open (ht : s.Tidy) {k : κ} {conn : MqttConnect}
    (hpc : s.conn k = .openSession conn) (hconn : conn.clientId = id) : s.Bears k id :=
  Or.inl ⟨by simp [hpc], (ht.named k conn (Or.inr hpc)).trans hconn⟩

theorem Leaving.unsaved {b : Broker cfg κ} {k : κ} {subs : Finset (CStr × UInt8)} {pc : ConnPc cfg}
    (h : Leaving b k id subs pc) : pc.Unsaved := by
  cases pc <;> trivial

theorem Arriving.returning {b : Broker cfg κ} {k : κ} {l : List (CStr × UInt8)}
    {i : SessionSlot cfg} {pc : ConnPc cfg} (h : Arriving pc) : Returning b k l i pc := by
  cases pc <;> first | exact h | exact h.elim

theorem OnTheWay.leaving_step [Inhabited κ] (ht : s.Tidy) (hset : s.Settled) (hid : id ≠ [])
    (hu : s.Undisturbed id e) (hr : s.Restorable id e) (h : s.step e = some s') {k : κ}
    (hcid : (s.broker.clients k).clientId = id)
    (hclean : (s.broker.clients k).cleanSession = false) {subs : Finset (CStr × UInt8)}
    (hleave : Leaving s.broker k id subs (s.conn k))
    (hother : ∀ j, j ≠ k → s.Bears j id → Arriving (s.conn j)) : s'.OnTheWay id subs := by
  have hclosed : ∀ j env conn, e = .next j env → s.conn j = .openSession conn →
      conn.clientId ≠ id := fun j env conn he hpc hconn ↦
    hr.saved j env conn he hpc hconn k hcid hleave.unsaved
  have harrive : ∀ j, j ≠ k → s'.Bears j id → Arriving (s'.conn j) := by
    intro j hj hb
    rcases bears_step ht h hid hb with hb | ⟨env, conn, rfl, hpc, hconn⟩
    · refine arriving_step hset h (hother j hj hb) fun env conn he hpc ↦ hclosed j env conn he hpc ?_
      rw [← ht.named j conn (Or.inr hpc)]
      rcases hb with ⟨-, hb⟩ | ⟨conn', hpc', -⟩
      · exact hb
      · rw [hpc] at hpc'
        cases hpc'
    · rw [takeover_next hset h hpc]
      exact hu.connect j env conn rfl hpc hconn
  by_cases hk : e.slot = some k
  · obtain ⟨⟨hcid', hclean'⟩, hleave' | ⟨l, i, hl, hkept, hpc⟩⟩ :=
      leaving_own ht hset hu h hk hcid hclean hleave
    · exact Or.inl ⟨k, hcid', hclean', hleave', harrive⟩
    · refine Or.inr ⟨l, i, hl, hkept, fun j hb ↦ ?_⟩
      by_cases hj : j = k
      · subst hj
        rw [hpc]
        exact hclean'
      · exact (harrive j hj hb).returning
  · have huntouched := (step_untouched h hk).client
    refine Or.inl ⟨k, huntouched.clientId.trans hcid, huntouched.cleanSession.trans hclean,
      leaving_other h hk hleave fun i x hx ↦ ?_, harrive⟩
    have hstays : ∀ j env, e = .next j env → (s.broker.clients j).clientId = id →
        s.conn j ≠ .idle → Arriving (s.conn j) := by
      intro j env he hj hidle
      refine hother j ?_ (Or.inl ⟨hidle, hj⟩)
      rintro rfl
      exact hk (he ▸ rfl)
    refine session_step ht h hx (fun j env conn he hpc hconn ↦
      absurd hconn (hclosed j env conn he hpc)) (fun j env i' l he hpc ↦ ?_)
      fun j env he hpc hj ↦ ?_
    · rintro rfl
      by_cases hj : (s.broker.clients j).clientId = id
      · have harr := hstays j env he hj (by simp [hpc])
        rw [hpc] at harr
        exact harr
      · exact hr.own j env i' l he hpc hj x hx
    · have harr := hstays j env he hj (by simp [hpc])
      rw [hpc] at harr
      exact harr.elim

/-- What is stored stays stored until a new connection has restored it. -/
theorem returning_step [Inhabited κ] (ht : s.Tidy) (hset : s.Settled)
    (hbare : ∀ k, (s.conn k).Bare → s.broker.table.NoneOf k) (hid : id ≠ [])
    (hu : s.Undisturbed id e) (hr : s.Restorable id e) (h : s.step e = some s')
    {l : List (CStr × UInt8)} {subs : Finset (CStr × UInt8)} (hl : Lists l subs)
    {i : SessionSlot cfg} (hkept : KeptAt s.broker.sessions id i l)
    (hall : ∀ j, s.Bears j id → Returning s.broker j l i (s.conn j)) :
    KeptAt s'.broker.sessions id i l ∧
      ∀ j, s'.Bears j id → Returning s'.broker j l i (s'.conn j) := by
  obtain ⟨x, hx, hsaves⟩ := hkept
  obtain ⟨x', hx', hsame⟩ : ∃ x', SessionAt s'.broker.sessions id i x' ∧ x.SameSubs x' := by
    refine session_step ht h hx (fun j env conn he hpc hconn ↦ ?_) (fun j env i' l' he hpc ↦ ?_)
      fun j env he hpc hj ↦ ?_
    · have hret := hall j (ht.bears_open hpc hconn)
      rwa [hpc] at hret
    · rintro rfl
      by_cases hj : (s.broker.clients j).clientId = id
      · have hret := hall j (Or.inl ⟨by simp [hpc], hj⟩)
        rw [hpc] at hret
        exact hret
      · exact hr.own j env i' l' he hpc hj x hx
    · have hret := hall j (Or.inl ⟨by simp [hpc], hj⟩)
      rwa [hpc] at hret
  refine ⟨⟨x', hx', hsame.saves hsaves⟩, fun j hb' ↦ ?_⟩
  rcases bears_step ht h hid hb' with hb | ⟨env, conn, rfl, hpc, hconn⟩
  · by_cases hj : e.slot = some j
    · exact returning_own ht hset hbare hu hr h hj hl ⟨x, hx, hsaves⟩ hb (hall j hb) hb'
    · exact returning_other h hj (hall j hb)
  · rw [takeover_next hset h hpc]
    exact hu.connect j env conn rfl hpc hconn

/-- The subscriptions stay on their way. -/
theorem OnTheWay.step [Inhabited κ] (ht : s.Tidy) (hset : s.Settled)
    (hbare : ∀ k, (s.conn k).Bare → s.broker.table.NoneOf k) (hid : id ≠ [])
    (hu : s.Undisturbed id e) (hr : s.Restorable id e) (h : s.step e = some s')
    {subs : Finset (CStr × UInt8)} (hway : s.OnTheWay id subs) : s'.OnTheWay id subs := by
  rcases hway with ⟨k, hcid, hclean, hleave, hother⟩ | ⟨l, i, hl, hkept, hall⟩
  · exact OnTheWay.leaving_step ht hset hid hu hr h hcid hclean hleave hother
  · exact Or.inr ⟨l, i, hl, returning_step ht hset hbare hid hu hr h hl hkept hall⟩

omit [DecidableEq σ] in
theorem Disconnects.onTheWay {k : κ} (h : s.Disconnects k id) :
    s.OnTheWay id (s.broker.table.subsOf k) := by
  refine Or.inl ⟨k, h.clientId, h.persistent, ?_, fun j hj hb ↦ absurd hb (h.alone j hj)⟩
  rw [h.pc]
  exact ⟨h.few, rfl⟩

/-- A step of the way on which the subscriptions are not lost. -/
def Restores (id : CStr) (s : Threads cfg κ σ) (e : ThreadEvent κ σ) : Prop :=
  s.Undisturbed id e ∧ s.Restorable id e

/-- In every run in which the session is looked up after it has been stored, and the
table has room for each restored subscription, a client that disconnects has the
same subscriptions after its next CONNECT. -/
theorem restored_of_restorable [Inhabited κ] {s₀ : Threads cfg κ σ} {k j : κ}
    (h₀ : ReachBy (fun _ _ ↦ True) s₀) (hleave : s₀.Disconnects k id)
    (hrun : Observer.Reach (silent cfg κ σ) (fun s _ e ↦ s.Restores id e) s₀ () s ())
    (hid : (s.broker.clients j).clientId = id) (hpc : s.conn j = .loop) :
    s.broker.table.subsOf j = s₀.broker.table.subsOf k := by
  have hinv : ReachBy (fun _ _ ↦ True) s ∧ s.OnTheWay id (s₀.broker.table.subsOf k) := by
    refine hrun.invariant (I := fun s _ ↦ ReachBy (fun _ _ ↦ True) s ∧
      s.OnTheWay id (s₀.broker.table.subsOf k)) ⟨h₀, hleave.onTheWay⟩ ?_
    rintro s n e s' - ⟨hreach, hway⟩ hallowed hstep
    exact ⟨hreach.step trivial hstep, hway.step (tidy_of_reach hreach) (settled_of_reach hreach)
      (bare_of_reach hreach) hleave.named hallowed.1 hallowed.2 hstep⟩
  have hb : s.Bears j id := Or.inl ⟨by simp [hpc], hid⟩
  rcases hinv.2 with ⟨k', -, -, hleave', hother⟩ | ⟨l, i, hl, -, hall⟩
  · by_cases hj : j = k'
    · subst hj
      rw [hpc] at hleave'
      exact hleave'.elim
    · have harr := hother j hj hb
      rw [hpc] at harr
      exact harr.elim
  · have hret := hall j hb
    rw [hpc] at hret
    exact hret.trans hl.eq

end Threads

deriving instance DecidableEq for ConnPc

namespace Sample

open Threads

/-- Two slots of the pool, and every call succeeds. -/
def envTwo : Env (Fin 2) := ⟨0, true, fun _ ↦ true⟩

/-- CONNECT of client id `b` with clean session. -/
def connectCleanPkt : MqttPacket :=
  ⟨PacketType.connect, 13, [0, 4, 0x4D, 0x51, 0x54, 0x54, 4, 2, 0, 60, 0, 1, 0x62]⟩

/-- SUBSCRIBE to the eight one-letter filters from `c` on. -/
def subscribeEightPkt (c : UInt8) : MqttPacket :=
  ⟨0x82, 34, [0, 1] ++ (List.range 8).flatMap fun i ↦ [0, 1, c + UInt8.ofNat i, 0]⟩

/-- A connection comes in, and its thread takes `n` steps. -/
def arriveRun (k : Fin 2) (pkt : MqttPacket) (n : ℕ) : List (ThreadEvent (Fin 2) Unit) :=
  .alloc k 5 :: .connect k envTwo pkt :: List.replicate n (.next k envTwo)

/-- Client `a` subscribes to `t` and loses its connection. -/
def departRun : List (ThreadEvent (Fin 2) Unit) :=
  arriveRun 0 connectPkt 6 ++ [.packet 0 envTwo subscribePkt, .next 0 envTwo, .leave 0]

/-- `client_free` has run, and client `a` gets its CONNACK. -/
def returnRun : List (ThreadEvent (Fin 2) Unit) :=
  List.replicate 14 (.next 0 envTwo) ++ arriveRun 0 connectPkt 4

/-- In between client `b` subscribes to as many filters as the table has slots. -/
def crowdRun : List (ThreadEvent (Fin 2) Unit) :=
  List.replicate 14 (.next 0 envTwo) ++ arriveRun 1 connectCleanPkt 6 ++
    (List.range 8).flatMap (fun i ↦
      [.packet 1 envTwo (subscribeEightPkt (0x30 + 8 * UInt8.ofNat i)), .next 1 envTwo]) ++
    arriveRun 0 connectPkt 4

/-- What `Undisturbed` asks of a step. -/
def calm (s : Threads Config.posix (Fin 2) Unit) : ThreadEvent (Fin 2) Unit → Bool
  | .next k env =>
      match s.conn k with
      | .lookup _ =>
          match sessionPoolEnsure s.broker.sessions env.callocOk with
          | some p => decide (∃ i, (p i).inUse = false ∨ (p i).clientId = [0x61])
          | none => false
      | .takeover conn => decide (conn.clientId = [0x61] → conn.cleanSession = false)
      | .loop => decide ((s.broker.clients k).clientId ≠ [0x61])
      | _ => true
  | _ => true

theorem undisturbed_of_calm {s : Threads Config.posix (Fin 2) Unit} {e : ThreadEvent (Fin 2) Unit}
    (h : calm s e = true) : s.Undisturbed [0x61] e where
  slot k env l he hpc _ := by
    subst he
    simp only [calm, hpc] at h
    cases hp : sessionPoolEnsure s.broker.sessions env.callocOk with
    | none =>
        rw [hp] at h
        cases h
    | some p =>
        rw [hp] at h
        exact ⟨p, hp, of_decide_eq_true h⟩
  connect k env conn he hpc := by
    subst he
    simp only [calm, hpc] at h
    exact of_decide_eq_true h
  handled k env he hpc := by
    subst he
    simp only [calm, hpc] at h
    exact of_decide_eq_true h

/-- What `Restorable` asks of a step. -/
def roomy (s : Threads Config.posix (Fin 2) Unit) : ThreadEvent (Fin 2) Unit → Bool
  | .next k _ =>
      match s.conn k with
      | .openSession _ => decide (∀ j, ¬ (s.conn j).Unsaved)
      | .saveSubs _ _ => decide ((s.broker.clients k).clientId = [0x61])
      | .restore _ _ => s.broker.table.findFree.isSome
      | _ => true
  | _ => true

theorem restorable_of_roomy {s : Threads Config.posix (Fin 2) Unit} {e : ThreadEvent (Fin 2) Unit}
    (h : roomy s e = true) : s.Restorable [0x61] e where
  saved k env conn he hpc _ j _ := by
    subst he
    simp only [roomy, hpc] at h
    exact of_decide_eq_true h j
  own k env i l he hpc hne := by
    subst he
    simp only [roomy, hpc] at h
    exact absurd (of_decide_eq_true h) hne
  room k env i n he hpc _ _ := by
    subst he
    simp only [roomy, hpc] at h
    exact Option.ne_none_iff_isSome.mpr h

/-- The end of the run in which client `a` loses its connection. -/
def departEnd : Option (Threads Config.posix (Fin 2) Unit) := (init _ _ _).run departRun

theorem departEnd_disconnects : ∃ s₀, departEnd = some s₀ ∧ ReachBy (fun _ _ ↦ True) s₀ ∧
    s₀.Disconnects 0 [0x61] := by
  have hrun : departEnd.isSome = true := by decide +kernel
  have hend := (Option.some_get hrun).symm
  refine ⟨_, hend, ReachBy.init.run (fun _ _ _ ↦ trivial) hend, ?_⟩
  generalize departEnd.get hrun = s₀ at hend
  have hconn : departEnd.map (fun s ↦ (s.conn 0, s.conn 1)) = some (.closeFd, .idle) := rfl
  have hclient : departEnd.map (fun s ↦ ((s.broker.clients 0).clientId,
      (s.broker.clients 0).cleanSession, (s.broker.table.heldBy 0).card)) =
        some ([0x61], false, 1) := by decide +kernel
  rw [hend] at hconn hclient
  simp only [Option.map_some, Option.some.injEq, Prod.mk.injEq] at hconn hclient
  obtain ⟨hid, hclean, hcard⟩ := hclient
  refine ⟨hconn.1, hid, by simp, hclean, by simp [hcard, SESSION_SUB_MAX], fun j hj hb ↦ ?_⟩
  obtain rfl : j = 1 := by omega
  rcases hb with ⟨hidle, -⟩ | ⟨conn, hpc, -⟩
  · exact hidle hconn.2
  · rw [hconn.2] at hpc
    cases hpc

/-- Slot 0 from its CONNACK to the end of `handle_connect`. -/
def resumeRun : List (ThreadEvent (Fin 2) Unit) := List.replicate 5 (.next 0 envTwo)

/-- The end of a run that goes on after the loss of the connection. -/
def endOf (es : List (ThreadEvent (Fin 2) Unit)) :
    Option (Threads Config.posix (Fin 2) Unit × Unit) :=
  departEnd.bind fun s₀ ↦ Observer.run (Threads.silent _ _ _) (s₀, ()) es

/-- All steps after the loss of the connection meet the check. -/
def allOf (check : Threads Config.posix (Fin 2) Unit → ThreadEvent (Fin 2) Unit → Bool)
    (es : List (ThreadEvent (Fin 2) Unit)) : Bool :=
  departEnd.any fun s₀ ↦ Observer.checked (Threads.silent _ _ _) (fun s _ e ↦ check s e = true) s₀ () es

theorem reach_of_allOf {check : Threads Config.posix (Fin 2) Unit → ThreadEvent (Fin 2) Unit → Bool}
    {es : List (ThreadEvent (Fin 2) Unit)} (h : allOf check es = true)
    {s₀ : Threads Config.posix (Fin 2) Unit} (hstart : departEnd = some s₀) :
    ∃ s, endOf es = some (s, ()) ∧
      Observer.Reach (Threads.silent _ _ _) (fun s _ e ↦ check s e = true) s₀ () s () := by
  rw [allOf, hstart, Option.any_some] at h
  obtain ⟨s, n, hrun⟩ := Observer.exists_run_of_checked h
  refine ⟨s, ?_, Observer.Reach.run_of_checked h .start hrun⟩
  rw [endOf, hstart]
  exact hrun

theorem returnRun_checked :
    allOf (fun s e ↦ calm s e && roomy s e) (returnRun ++ resumeRun) = true := by decide +kernel

theorem crowdRun_checked : allOf calm crowdRun = true := by decide +kernel

/-- The CONNACK reports the session, and then the table has nothing of client `a`. -/
theorem crowdRun_end : (endOf crowdRun).any (fun r ↦
    decide (r.1.conn 0 = .connack (some ⟨0, Config.posix.maxClients_pos⟩) true) &&
      Observer.checked (Threads.silent _ _ _) (fun s _ e ↦ calm s e = true) r.1 () resumeRun &&
      (Observer.run (Threads.silent _ _ _) r resumeRun).any fun r ↦
        decide (r.1.conn 0 = .loop ∧ (r.1.broker.clients 0).clientId = [0x61] ∧
          r.1.broker.table.heldBy 0 = ∅)) = true := by decide +kernel

end Sample

/-- The statement when nobody else comes in between. -/
theorem restored_alone : ∃ s₀ s : Threads Config.posix (Fin 2) Unit,
    Threads.ReachBy (fun _ _ ↦ True) s₀ ∧ s₀.Disconnects 0 [0x61] ∧
      Observer.Reach (Threads.silent _ _ _) (fun s _ e ↦ s.Restores [0x61] e) s₀ () s () ∧
      s.conn 0 = .loop ∧ s.broker.table.subsOf 0 = s₀.broker.table.subsOf 0 := by
  obtain ⟨s₀, hstart, hreach, hleave⟩ := Sample.departEnd_disconnects
  obtain ⟨s, hend, hrun⟩ := Sample.reach_of_allOf Sample.returnRun_checked hstart
  have hrestores : Observer.Reach (Threads.silent _ _ _) (fun s _ e ↦ s.Restores [0x61] e)
      s₀ () s () := by
    refine hrun.mono fun s _ e h ↦ ?_
    obtain ⟨hcalm, hroomy⟩ := Bool.and_eq_true_iff.mp h
    exact ⟨Sample.undisturbed_of_calm hcalm, Sample.restorable_of_roomy hroomy⟩
  have hconn : (Sample.endOf (Sample.returnRun ++ Sample.resumeRun)).map
      (fun r ↦ r.1.conn 0) = some .loop := rfl
  have hid : (Sample.endOf (Sample.returnRun ++ Sample.resumeRun)).map
      (fun r ↦ (r.1.broker.clients 0).clientId) = some [0x61] := by decide +kernel
  rw [hend] at hconn hid
  have hpc := Option.some.inj hconn
  exact ⟨s₀, s, hreach, hleave, hrestores, hpc,
    Threads.restored_of_restorable hreach hleave hrestores (Option.some.inj hid) hpc⟩

/-- The CONNACK reports the session of a client, but its subscription is gone: others
have filled the table. -/
theorem lost_in_full_table : ∃ (s₀ s₁ s : Threads Config.posix (Fin 2) Unit)
    (i : SessionSlot Config.posix),
    Threads.ReachBy (fun _ _ ↦ True) s₀ ∧ s₀.Disconnects 0 [0x61] ∧
      Observer.Reach (Threads.silent _ _ _) (fun s _ e ↦ s.Undisturbed [0x61] e) s₀ () s₁ () ∧
      s₁.conn 0 = .connack (some i) true ∧
      Observer.Reach (Threads.silent _ _ _) (fun s _ e ↦ s.Undisturbed [0x61] e) s₁ () s () ∧
      s.conn 0 = .loop ∧ (s.broker.clients 0).clientId = [0x61] ∧
      s₀.broker.table.subsOf 0 ≠ ∅ ∧ s.broker.table.subsOf 0 = ∅ := by
  obtain ⟨s₀, hstart, hreach, hleave⟩ := Sample.departEnd_disconnects
  obtain ⟨s₁, hend, hrun⟩ := Sample.reach_of_allOf Sample.crowdRun_checked hstart
  have hlost := Sample.crowdRun_end
  rw [hend, Option.any_some, Bool.and_eq_true, Bool.and_eq_true] at hlost
  obtain ⟨⟨hconnack, hchecked⟩, hlost⟩ := hlost
  obtain ⟨s, n, hresume⟩ := Observer.exists_run_of_checked hchecked
  rw [hresume, Option.any_some] at hlost
  obtain ⟨hpc, hid, hnone⟩ := of_decide_eq_true hlost
  have hheld : Sample.departEnd.map (fun s ↦ (s.broker.table.subsOf 0).card) = some 1 := by
    decide +kernel
  rw [hstart] at hheld
  refine ⟨s₀, s₁, s, _, hreach, hleave, hrun.mono fun _ _ _ ↦ Sample.undisturbed_of_calm,
    of_decide_eq_true hconnack,
    (Observer.Reach.run_of_checked hchecked .start hresume).mono fun _ _ _ ↦
      Sample.undisturbed_of_calm, hpc, hid, fun hempty ↦ ?_, ?_⟩
  · rw [Option.map_some, hempty] at hheld
    cases hheld
  · rw [TopicTable.subsOf, hnone, Finset.image_empty]

end MqttBroker
