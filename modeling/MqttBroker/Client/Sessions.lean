import MqttBroker.Client.Persist
import MqttBroker.Client.Reuse
import MqttBroker.Topic.Subscriptions

/-!
# The session pool along a run

Which steps of the threads create, delete and overwrite sessions, and what holds
of the pool and of the subscription table in every state.
-/

namespace MqttBroker

variable {cfg : Config} {κ σ : Type}

/-! ## Sessions with the same subscriptions -/

/-- The owner and the stored subscriptions are the same. -/
structure Session.SameSubs (s s' : Session) : Prop where
  clientId : s'.clientId = s.clientId
  inUse : s'.inUse = s.inUse
  subCount : s'.subCount = s.subCount
  subFilters : s'.subFilters = s.subFilters
  subQos : s'.subQos = s.subQos

namespace Session.SameSubs

variable {s t u : Session}

theorem refl (s : Session) : s.SameSubs s := ⟨rfl, rfl, rfl, rfl, rfl⟩

theorem trans (h : s.SameSubs t) (h' : t.SameSubs u) : s.SameSubs u where
  clientId := h'.clientId.trans h.clientId
  inUse := h'.inUse.trans h.inUse
  subCount := h'.subCount.trans h.subCount
  subFilters := h'.subFilters.trans h.subFilters
  subQos := h'.subQos.trans h.subQos

theorem enqueue (s : Session) (pub : MqttPublish) (id : UInt16) :
    s.SameSubs (s.enqueue pub id).1 := by
  rcases s.enqueue_cases pub id with ⟨i, -, heq⟩ | ⟨-, heq⟩ <;> rw [heq] <;>
    exact ⟨rfl, rfl, rfl, rfl, rfl⟩

theorem saveInflight (s : Session) (e : Inflight) : s.SameSubs (s.saveInflight e) := by
  unfold Session.saveInflight
  split_ifs
  · exact .refl s
  · cases e.reparse with
    | none => exact .refl s
    | some pub => exact .enqueue s _ _

end Session.SameSubs

/-- The pools differ in the queues and the flags of their sessions only. -/
def PoolSame : SessionPool cfg → SessionPool cfg → Prop
  | some p, some p' => ∀ i, (p i).SameSubs (p' i)
  | none, none => True
  | _, _ => False

namespace PoolSame

variable {pool pool' pool'' : SessionPool cfg}

theorem refl (pool : SessionPool cfg) : PoolSame pool pool := by
  cases pool with
  | none => trivial
  | some p => exact fun i ↦ .refl (p i)

theorem trans (h : PoolSame pool pool') (h' : PoolSame pool' pool'') : PoolSame pool pool'' := by
  cases pool <;> cases pool' <;> cases pool'' <;> first | exact h.elim | exact h'.elim | skip
  · trivial
  · exact fun i ↦ (h i).trans (h' i)

theorem forth (h : PoolSame pool pool') {id : CStr} {i : SessionSlot cfg} {s : Session}
    (hs : SessionAt pool id i s) : ∃ s', SessionAt pool' id i s' ∧ s.SameSubs s' := by
  obtain ⟨p, rfl, rfl, huse, hid⟩ := hs
  cases pool' with
  | none => exact h.elim
  | some p' =>
      have hsame := h i
      exact ⟨p' i, sessionAt_some.mpr ⟨rfl, hsame.inUse.trans huse, hsame.clientId.trans hid⟩, hsame⟩

theorem back (h : PoolSame pool pool') {id : CStr} {i : SessionSlot cfg} {s' : Session}
    (hs : SessionAt pool' id i s') : ∃ s, SessionAt pool id i s := by
  obtain ⟨p', rfl, rfl, huse, hid⟩ := hs
  cases pool with
  | none => exact h.elim
  | some p =>
      have hsame := h i
      exact ⟨p i, sessionAt_some.mpr ⟨rfl, hsame.inUse.symm.trans huse, hsame.clientId.symm.trans hid⟩⟩

theorem offlinePublish (pool : SessionPool cfg) (pub : MqttPublish) :
    PoolSame pool (sessionOfflinePublish pool pub topicMatch).1 := by
  unfold sessionOfflinePublish
  split_ifs
  · exact .refl pool
  · cases pool with
    | none => trivial
    | some p =>
        intro i
        obtain ⟨hgrow, huse, hid⟩ := (p i).offlinePublishOne_grows pub topicMatch
        exact ⟨hid, huse, hgrow.subCount, hgrow.subFilters, hgrow.subQos⟩

theorem updateSession (b : Broker cfg κ) (i : SessionSlot cfg) {f : Session → Session}
    (hf : (b.session i).SameSubs (f (b.session i))) :
    PoolSame b.sessions (b.updateSession i f).sessions := by
  unfold Broker.updateSession
  unfold Broker.session at hf
  cases hp : b.sessions with
  | none => trivial
  | some p =>
      rw [hp] at hf
      intro j
      by_cases hj : j = i
      · subst hj
        simpa using hf
      · simpa [hj] using Session.SameSubs.refl (p j)

end PoolSame

theorem topicPublishInternal_poolSame [DecidableEq κ] {env : Env κ} {b : Broker cfg κ}
    {pub : MqttPublish} {propagate : Bool} {r : Published cfg κ}
    (h : topicPublishInternal env b pub propagate = some r) :
    PoolSame b.sessions r.broker.sessions := by
  unfold topicPublishInternal at h
  split at h
  · cases h
    exact .refl _
  · obtain ⟨r', -, rfl⟩ := Option.map_eq_some_iff.mp h
    exact .offlinePublish _ pub

/-- A handled packet leaves the owners and the subscriptions of all sessions. -/
theorem poolSame_rule [DecidableEq κ] (me : κ) : HandlerRule me fun b b' : Broker cfg κ ↦
    PoolSame b.sessions b'.sessions where
  refl _ := .refl _
  trans := .trans
  subscribe _ _ _ _ _ _ := .refl _
  unsubscribe _ _ _ _ := .refl _
  mark _ _ _ := .refl _
  send _ _ := .refl _
  ack _ _ := .refl _
  pubrec _ _ _ _ := .refl _
  retained _ _ _ _ _ := .refl _
  publish _ _ _ _ _ hrun := topicPublishInternal_poolSame hrun

/-! ## The steps that create, delete and overwrite sessions -/

section

variable [DecidableEq κ]

/-- What a step of `handle_connect` or `client_free` makes of the session pool. -/
inductive PoolCase (env : Env κ) (b : Broker cfg κ) (me : κ) (pc : ConnPc cfg) :
    SessionPool cfg → Prop where
  | same {pool : SessionPool cfg} (h : PoolSame b.sessions pool) : PoolCase env b me pc pool
  | openSession (conn : MqttConnect) (hpc : pc = .openSession conn) :
      PoolCase env b me pc (connectSession b.sessions env.callocOk conn).1
  | lookup (subs : List (CStr × UInt8)) (hpc : pc = .lookup subs) :
      PoolCase env b me pc
        (sessionFindOrCreate b.sessions env.callocOk (b.clients me).clientId).1
  | saveSubs (i : SessionSlot cfg) (subs : List (CStr × UInt8)) (hpc : pc = .saveSubs i subs) :
      PoolCase env b me pc (b.updateSession i (·.saveSubs subs)).sessions
  | delete (hpc : pc = .delete) (hclean : (b.clients me).cleanSession = true) :
      PoolCase env b me pc (sessionDelete b.sessions (b.clients me).clientId)

omit [DecidableEq κ] in
theorem Session.sameSubs_drain (s : Session) (c : Client) (now : ℤ) (sendOk : Bool) :
    s.SameSubs (s.drain c now sendOk).1 := ⟨rfl, rfl, rfl, rfl, rfl⟩

theorem connStep_poolCase {env : Env κ} {b : Broker cfg κ} {me : κ} {pc pc' : ConnPc cfg}
    {h : Handled cfg κ} (hnext : connStep env b me pc = some (h, pc')) :
    PoolCase env b me pc h.broker.sessions := by
  have hreply : ∀ frame, PoolSame b.sessions (Handled.reply env me frame ⟨b, []⟩).broker.sessions :=
    fun frame ↦ (poolSame_rule me).reply env frame ⟨b, []⟩
  cases pc with
  | openSession conn => cases hnext; exact .openSession conn rfl
  | lookup subs => cases hnext; exact .lookup subs rfl
  | saveSubs i subs => cases hnext; exact .saveSubs i subs rfl
  | delete =>
      cases hnext
      dsimp only
      split_ifs with hclean
      · exact .delete rfl hclean
      · exact .same (.refl _)
  | connack sess present => cases hnext; exact .same (hreply _)
  | reply ack => cases hnext; exact .same (hreply ack)
  | restore i n =>
      simp only [connStep] at hnext
      split at hnext
      · cases hnext
        unfold restoreOne
        split_ifs <;> exact .same (.refl _)
      · cases hnext
        exact .same (.refl _)
  | online i =>
      cases hnext
      exact .same (.updateSession b i ⟨rfl, rfl, rfl, rfl, rfl⟩)
  | drain i =>
      cases hnext
      have hsame := (b.session i).sameSubs_drain (b.clients me) env.now (env.sendOk me)
      exact .same (PoolSame.updateSession b i (f := fun _ ↦ _) hsame)
  | saveInflight i n =>
      simp only [connStep] at hnext
      split at hnext
      · cases hnext
        exact .same (.updateSession b i (.saveInflight _ _))
      · cases hnext
        exact .same (.refl _)
  | will =>
      simp only [connStep] at hnext
      split_ifs at hnext
      cases hnext
      exact .same (.refl _)
  | unsubscribe =>
      obtain ⟨r, -, heq⟩ := Option.map_eq_some_iff.mp hnext
      cases heq
      exact .same (.refl _)
  | takeover | assignId | assignRest | loop | collect | closeFd | clearWill | release =>
      cases hnext
      exact .same (.refl _)
  | idle | waiting | recv | publish => cases hnext

theorem publishLocked_sessions {env : Env κ} {b : Broker cfg κ} {pub : MqttPublish}
    {r : Broker cfg κ × Option (List (SendOp κ))} (h : publishLocked env b pub = some r) :
    r.1.sessions = b.sessions := by
  unfold publishLocked at h
  split at h
  · cases h
    rfl
  · obtain ⟨r', -, rfl⟩ := Option.map_eq_some_iff.mp h
    rfl

theorem publishBegin_frame {env : Env κ} {b b' : Broker cfg κ} {me : κ} {pkt : MqttPacket}
    {pub : MqttPublish} {ack : Option Bytes}
    (h : publishBegin env b me pkt = some (b', pub, ack)) :
    b'.sessions = b.sessions ∧ b'.table = b.table := by
  unfold publishBegin at h
  rcases ite_eq_iff.mp h with ⟨-, h⟩ | ⟨-, h⟩
  · cases h
  split at h
  · cases h
  dsimp only at h
  rcases ite_eq_iff.mp h with ⟨-, h⟩ | ⟨-, h⟩
  · cases h
  rcases ite_eq_iff.mp h with ⟨-, h⟩ | ⟨-, h⟩
  · split at h <;> cases h
    exact ⟨rfl, rfl⟩
  · cases h
    exact ⟨rfl, rfl⟩

namespace Threads

variable [DecidableEq σ] {s s' : Threads cfg κ σ} {e : ThreadEvent κ σ}

theorem pool_cases (h : s.step e = some s') :
    PoolSame s.broker.sessions s'.broker.sessions ∨
      ∃ k env, e = .next k env ∧ PoolCase env s.broker k (s.conn k) s'.broker.sessions := by
  have hbegin : ∀ {a : Threads cfg κ σ} {who : κ ⊕ σ} {env : Env κ} {pub : MqttPublish},
      a.broker = s.broker → a.begin who env pub = some s' →
      PoolSame s.broker.sessions s'.broker.sessions := by
    intro a who env pub ha hb
    obtain ⟨r, hlocked, rfl⟩ := Option.map_eq_some_iff.mp hb
    rw [ha] at hlocked
    exact (publishLocked_sessions hlocked) ▸ .refl _
  cases step_cases h with
  | alloc | notConnect | connect | late | tick | leave | send => exact Or.inl (.refl _)
  | reject k env pkt code hpc hcheck =>
      rw [goTo_broker, handleConnect, hcheck]
      exact Or.inl (((poolSame_rule k).reply env _ ⟨s.broker, []⟩).trans ((poolSame_rule k).close _))
  | publishPacket k env pkt b pub ack hpc hb =>
      exact Or.inl ((publishBegin_frame hb).1 ▸ .refl _)
  | packet k env pkt h' hpc hb hrun => exact Or.inl ((poolSame_rule k).dispatch hrun)
  | next k env h' pc hjob hnext => exact Or.inr ⟨k, env, rfl, connStep_poolCase hnext⟩
  | publish k env pub ack s' hpc hb =>
      exact Or.inl (hbegin (goTo_broker s k s.broker (.reply ack)) hb)
  | will k env s' hpc hwill hb => exact Or.inl (hbegin (goTo_broker s k s.broker .clearWill) hb)
  | foreign t env pub s' hjob hb => exact Or.inl (hbegin rfl hb)
  | offline who pub => exact Or.inl (.offlinePublish _ pub)

end Threads

end

/-! ## One session for each client id -/

theorem OneSession.poolSame {pool pool' : SessionPool cfg} {id : CStr} (hone : OneSession pool id)
    (h : PoolSame pool pool') : OneSession pool' id := by
  intro i j s t hs ht
  obtain ⟨s', hs'⟩ := h.back hs
  obtain ⟨t', ht'⟩ := h.back ht
  exact hone i j s' t' hs' ht'

theorem sessionAt_delete {pool : SessionPool cfg} {id id' : CStr} {i : SessionSlot cfg}
    {s : Session} (hs : SessionAt (sessionDelete pool id') id i s) : SessionAt pool id i s := by
  cases pool with
  | none => exact absurd hs not_sessionAt_none
  | some p =>
      simp only [sessionDelete, Option.map_some] at hs
      cases hfind : findSession p id' with
      | none => rwa [hfind] at hs
      | some k =>
          rw [hfind] at hs
          dsimp only at hs
          obtain ⟨hi, huse, hid⟩ := sessionAt_some.mp hs
          by_cases hik : i = k
          · subst hik
            rw [Function.update_self] at hi
            rw [← hi] at huse
            cases huse
          · rw [Function.update_of_ne hik] at hi
            exact sessionAt_some.mpr ⟨hi, huse, hid⟩

theorem OneSession.delete {pool : SessionPool cfg} {id : CStr} (hone : OneSession pool id)
    (id' : CStr) : OneSession (sessionDelete pool id') id :=
  fun i j s t hs ht ↦ hone i j s t (sessionAt_delete hs) (sessionAt_delete ht)

theorem OneSession.findOrCreate {pool : SessionPool cfg} {id id' : CStr}
    (hone : OneSession pool id) (callocOk : Bool) (hlen : id'.length < MQTT_CLIENT_ID_MAX) :
    OneSession (sessionFindOrCreate pool callocOk id').1 id := by
  by_cases hne : id' = id
  · subst hne
    rcases sessionFindOrCreate_cases pool callocOk id' with
      ⟨i, s, -, heq⟩ | ⟨hnone, ⟨p, i, hp, -, heq⟩ | ⟨pool', hpool, heq⟩⟩
    · rwa [heq]
    · rw [heq]
      have hback : ∀ j t, SessionAt (some (Function.update p i (freshSession id'))) id' j t →
          j = i := by
        intro j t ht
        by_contra hji
        rw [sessionAt_some, Function.update_of_ne hji, ← sessionAt_some, hp] at ht
        exact hnone j t ht
      exact fun j k t u ht hu ↦ (hback j t ht).trans (hback k u hu).symm
    · rw [heq]
      exact fun j k t u ht _ ↦ absurd ((hpool id' j t).mp ht) (hnone j t)
  · exact (sessionFindOrCreate_kept pool callocOk hlen hne).oneSession hone

theorem OneSession.saveSubs {b : Broker cfg κ} {id : CStr} (hone : OneSession b.sessions id)
    (i : SessionSlot cfg) (subs : List (CStr × UInt8)) :
    OneSession (b.updateSession i (·.saveSubs subs)).sessions id := by
  have hback : ∀ j t, SessionAt (b.updateSession i (·.saveSubs subs)).sessions id j t →
      ∃ u, SessionAt b.sessions id j u := by
    intro j t ht
    by_cases hj : j = i
    · subst hj
      cases hp : b.sessions with
      | none =>
          rw [Broker.updateSession, hp] at ht
          exact absurd ht not_sessionAt_none
      | some p =>
          rw [Broker.updateSession, hp, Option.map_some] at ht
          obtain ⟨hpt, huse, hid⟩ := sessionAt_some.mp ht
          rw [Function.update_self] at hpt
          subst hpt
          exact ⟨p j, sessionAt_some.mpr ⟨rfl, huse, hid⟩⟩
    · exact ⟨t, (sessionAt_updateSession_ne hj _ t).mp ht⟩
  intro j k t u ht hu
  obtain ⟨t', ht'⟩ := hback j t ht
  obtain ⟨u', hu'⟩ := hback k u hu
  exact hone j k t' u' ht' hu'

/-! ## Stored filters -/

/-- Every stored filter fits into a slot of the subscription table. -/
def Session.ShortSubs (s : Session) : Prop :=
  ∀ j : Fin SESSION_SUB_MAX, j.val < s.subCount → (s.subFilters j).length < MQTT_TOPIC_MAX

theorem Session.shortSubs_saveSubs (s : Session) (subs : List (CStr × UInt8)) :
    (s.saveSubs subs).ShortSubs := by
  intro j hj
  have hlt : j.val < subs.length := lt_of_lt_of_le hj (min_le_left _ _)
  simp only [Session.saveSubs, List.getElem?_eq_getElem hlt]
  exact lt_of_le_of_lt (List.length_take_le _ _) (by decide)

theorem PoolAll.shortSubs_same {pool pool' : SessionPool cfg}
    (h : PoolAll Session.ShortSubs pool) (hsame : PoolSame pool pool') :
    PoolAll Session.ShortSubs pool' := by
  rintro p' rfl i j hj
  cases pool with
  | none => exact hsame.elim
  | some p =>
      rw [(hsame i).subCount] at hj
      rw [(hsame i).subFilters]
      exact h p rfl i j hj

/-! ## The subscription table -/

namespace TopicTable

variable {t t' : TopicTable cfg κ}

/-- Every filter fits into its slot, and no client has a filter twice. -/
structure Distinct (t : TopicTable cfg κ) : Prop where
  short : ∀ i x, t.sub i = some x → x.filter.length < MQTT_TOPIC_MAX
  once : ∀ i j x y, t.sub i = some x → t.sub j = some y → x.client = y.client →
    x.filter = y.filter → i = j

theorem Distinct.of_sub (h : t.Distinct) (hsub : ∀ i x, t'.sub i = some x → t.sub i = some x) :
    t'.Distinct where
  short i x hx := h.short i x (hsub i x hx)
  once i j x y hx hy := h.once i j x y (hsub i x hx) (hsub j y hy)

theorem Distinct.update (h : t.Distinct) {i : Slot cfg} {x : Subscription κ}
    (hsub : t'.sub = Function.update t.sub i (some x)) (hshort : x.filter.length < MQTT_TOPIC_MAX)
    (hnew : ∀ j y, j ≠ i → t.sub j = some y → y.client = x.client → y.filter ≠ x.filter) :
    t'.Distinct where
  short j y hy := by
    rw [hsub] at hy
    by_cases hj : j = i
    · subst hj
      rw [Function.update_self] at hy
      exact Option.some.inj hy ▸ hshort
    · rw [Function.update_of_ne hj] at hy
      exact h.short j y hy
  once j k y z hy hz hclient hfilter := by
    rw [hsub] at hy hz
    by_cases hj : j = i <;> by_cases hk : k = i
    · exact hj.trans hk.symm
    · subst hj
      rw [Function.update_self] at hy
      rw [Function.update_of_ne hk] at hz
      obtain rfl := Option.some.inj hy
      exact absurd hfilter.symm (hnew k z hk hz hclient.symm)
    · subst hk
      rw [Function.update_of_ne hj] at hy
      rw [Function.update_self] at hz
      obtain rfl := Option.some.inj hz
      exact absurd hfilter (hnew j y hj hy hclient)
    · rw [Function.update_of_ne hj] at hy
      rw [Function.update_of_ne hk] at hz
      exact h.once j k y z hy hz hclient hfilter

variable [DecidableEq κ]

theorem Distinct.topicSubscribe (h : t.Distinct) {c : κ} {filter : CStr} {qos : UInt8}
    (hshort : filter.length < MQTT_TOPIC_MAX) : (t.topicSubscribe c filter qos).1.Distinct := by
  have htake : filter.take (MQTT_TOPIC_MAX - 1) = filter :=
    List.take_of_length_le (by simp only [MQTT_TOPIC_MAX] at hshort ⊢; omega)
  rcases t.topicSubscribe_cases c filter qos with
    ⟨i, hfind, heq⟩ | ⟨hnone, ⟨i, -, heq⟩ | ⟨-, heq⟩⟩
  · refine h.update heq hshort fun j y hj hy hclient hfilter ↦ ?_
    exact hj (h.once j i y _ hy (findSub_some hfind) hclient hfilter)
  · rw [htake] at heq
    refine h.update heq hshort fun j y hj hy hclient hfilter ↦ ?_
    obtain ⟨c', f', q'⟩ := y
    obtain ⟨rfl, rfl⟩ : c' = c ∧ f' = filter := ⟨hclient, hfilter⟩
    exact findSub_none hnone j q' hy
  · rwa [heq]

theorem Distinct.topicUnsubscribe (h : t.Distinct) {c : κ} {filter : CStr}
    {r : TopicTable cfg κ × List Notify} (hrun : t.topicUnsubscribe c filter = some r) :
    r.1.Distinct := by
  rcases topicUnsubscribe_cases hrun with ⟨i, -, heq⟩ | ⟨-, rfl⟩
  · refine h.of_sub fun j x hx ↦ ?_
    rw [heq] at hx
    by_cases hj : j = i
    · subst hj
      rw [Function.update_self] at hx
      cases hx
    · rwa [Function.update_of_ne hj] at hx
  · exact h

/-! ### The subscriptions of a client -/

/-- The filters that client `c` has subscribed to, with their QoS. -/
def subsOf (t : TopicTable cfg κ) (c : κ) : Finset (CStr × UInt8) :=
  (t.heldBy c).image fun i ↦ ((t.subs i).filter, (t.subs i).qos)

theorem mem_heldBy {c : κ} {i : Slot cfg} :
    i ∈ t.heldBy c ↔ ∃ x, t.sub i = some x ∧ x.client = c := by
  simp only [heldBy, Finset.mem_filter, Finset.mem_univ, true_and]
  constructor
  · rintro ⟨huse, hc⟩
    exact ⟨⟨c, (t.subs i).filter, (t.subs i).qos⟩, sub_eq_some_iff.mpr ⟨huse, hc, rfl, rfl⟩, rfl⟩
  · rintro ⟨x, hx, rfl⟩
    obtain ⟨huse, hc, -, -⟩ := sub_eq_some_iff.mp hx
    exact ⟨huse, hc⟩

theorem mem_subsOf {c : κ} {f : CStr} {q : UInt8} :
    (f, q) ∈ t.subsOf c ↔ ∃ i, t.sub i = some ⟨c, f, q⟩ := by
  simp only [subsOf, Finset.mem_image, heldBy, Finset.mem_filter, Finset.mem_univ, true_and,
    Prod.mk.injEq]
  constructor
  · rintro ⟨i, ⟨huse, hc⟩, hf, hq⟩
    exact ⟨i, sub_eq_some_iff.mpr ⟨huse, hc, hf, hq⟩⟩
  · rintro ⟨i, hi⟩
    obtain ⟨huse, hc, hf, hq⟩ := sub_eq_some_iff.mp hi
    exact ⟨i, ⟨huse, hc⟩, hf, hq⟩

theorem subsOf_noneOf {c : κ} (h : t.NoneOf c) : t.subsOf c = ∅ := by
  refine Finset.eq_empty_of_forall_notMem fun ⟨f, q⟩ hmem ↦ ?_
  obtain ⟨i, hi⟩ := mem_subsOf.mp hmem
  obtain ⟨huse, hc, -, -⟩ := sub_eq_some_iff.mp hi
  exact h i huse hc

/-- The subscriptions of `c` are in the same slots. -/
def SameFor (t t' : TopicTable cfg κ) (c : κ) : Prop :=
  ∀ i x, x.client = c → (t'.sub i = some x ↔ t.sub i = some x)

theorem SameFor.heldBy {c : κ} (h : t.SameFor t' c) : t'.heldBy c = t.heldBy c := by
  ext i
  rw [mem_heldBy, mem_heldBy]
  exact exists_congr fun x ↦ and_congr_left fun hx ↦ h i x hx

theorem SameFor.subsOf {c : κ} (h : t.SameFor t' c) : t'.subsOf c = t.subsOf c := by
  ext ⟨f, q⟩
  rw [mem_subsOf, mem_subsOf]
  exact exists_congr fun i ↦ h i _ rfl

omit [DecidableEq κ] in
theorem sameFor_update {c : κ} {i : Slot cfg} {y : Option (Subscription κ)}
    (hsub : t'.sub = Function.update t.sub i y) (hold : ∀ x, t.sub i = some x → x.client ≠ c)
    (hnew : ∀ x, y = some x → x.client ≠ c) : t.SameFor t' c := by
  intro j x hx
  rw [hsub]
  by_cases hj : j = i
  · subst hj
    rw [Function.update_self]
    exact ⟨fun h ↦ absurd hx (hnew x h), fun h ↦ absurd hx (hold x h)⟩
  · rw [Function.update_of_ne hj]

theorem sameFor_subscribe {c d : κ} (hne : c ≠ d) (filter : CStr) (qos : UInt8) :
    t.SameFor (t.topicSubscribe d filter qos).1 c := by
  rcases t.topicSubscribe_cases d filter qos with ⟨i, hfind, heq⟩ | ⟨-, ⟨i, hfree, heq⟩ | ⟨-, heq⟩⟩
  · refine sameFor_update heq (fun x hx ↦ ?_) fun x hx ↦ ?_
    · rw [findSub_some hfind] at hx
      exact Option.some.inj hx ▸ hne.symm
    · exact Option.some.inj hx ▸ hne.symm
  · refine sameFor_update heq (fun x hx ↦ ?_) fun x hx ↦ ?_
    · rw [sub_eq_none_iff.mpr (findFree_free hfree)] at hx
      cases hx
    · exact Option.some.inj hx ▸ hne.symm
  · rw [heq]
    exact fun _ _ _ ↦ Iff.rfl

theorem sameFor_unsubscribe {c d : κ} (hne : c ≠ d) {filter : CStr}
    {r : TopicTable cfg κ × List Notify} (hrun : t.topicUnsubscribe d filter = some r) :
    t.SameFor r.1 c := by
  rcases topicUnsubscribe_cases hrun with ⟨i, hfind, heq⟩ | ⟨-, rfl⟩
  · refine sameFor_update heq (fun x hx ↦ ?_) nofun
    rw [findSub_some hfind] at hx
    exact Option.some.inj hx ▸ hne.symm
  · exact fun _ _ _ ↦ Iff.rfl

omit [DecidableEq κ] in
theorem Removed.sameFor {c d : κ} (hne : c ≠ d) (h : t.Removed d t') : t.SameFor t' c := by
  intro i x hx
  refine ⟨h.sub, fun hi ↦ ?_⟩
  obtain ⟨huse, hc, hf, hq⟩ := sub_eq_some_iff.mp hi
  have hother : (t.subs i).client ≠ d := by
    rw [hc, hx]
    exact hne
  exact sub_eq_some_iff.mpr ⟨(h.others hother).trans huse, h.client.trans hc, h.filter.trans hf,
    h.qos.trans hq⟩

omit [DecidableEq κ] in
theorem SameFor.refl (t : TopicTable cfg κ) (c : κ) : t.SameFor t c := fun _ _ _ ↦ Iff.rfl

omit [DecidableEq κ] in
theorem SameFor.trans {a b d : TopicTable cfg κ} {c : κ} (h : a.SameFor b c)
    (h' : b.SameFor d c) : a.SameFor d c := fun i x hx ↦ (h' i x hx).trans (h i x hx)

end TopicTable

/-- A thread leaves the subscriptions of the other connections. -/
theorem sameFor_rule [DecidableEq κ] (me : κ) : ThreadRule me fun b b' : Broker cfg κ ↦
    ∀ j, j ≠ me → b.table.SameFor b'.table j where
  refl _ _ _ := .refl _ _
  trans h h' j hj := (h j hj).trans (h' j hj)
  subscribe _ filter qos _ _ _ _ hj := TopicTable.sameFor_subscribe hj filter qos
  restore _ filter qos _ hj := TopicTable.sameFor_subscribe hj filter qos
  unsubscribe _ _ _ hrun _ hj := TopicTable.sameFor_unsubscribe hj hrun
  mark _ _ _ _ _ := .refl _ _
  send _ _ _ _ := .refl _ _
  ack _ _ _ _ := .refl _ _
  pubrec _ _ _ _ _ _ := .refl _ _
  retained _ _ _ _ _ _ _ := .refl _ _
  publish _ _ _ _ _ hrun _ _ := (topicPublishInternal_frame hrun).1 ▸ .refl _ _
  sessions _ _ _ _ := .refl _ _
  drain _ _ _ _ _ _ := .refl _ _
  retry _ _ _ _ _ := .refl _ _
  assignRest _ _ _ _ := .refl _ _
  closeFd _ _ _ := .refl _ _
  unsubscribeSection _ _ hrun _ hj := (unsubscribeSection_removed hrun).1.sameFor hj
  locked hrun _ _ := (publishLocked_serve hrun).1 ▸ .refl _ _
  op _ _ _ _ _ := .refl _ _

theorem distinct_rule [DecidableEq κ] (me : κ) : HandlerRule me fun b b' : Broker cfg κ ↦
    b.table.Distinct → b'.table.Distinct where
  refl _ h := h
  trans h h' hb := h' (h hb)
  subscribe _ _ _ hshort _ _ h := h.topicSubscribe hshort
  unsubscribe _ _ _ hrun h := h.topicUnsubscribe hrun
  mark _ _ _ h := h
  send _ _ h := h
  ack _ _ h := h
  pubrec _ _ _ _ h := h
  retained _ _ _ _ _ h := h
  publish _ _ _ _ _ hrun h := by rwa [(topicPublishInternal_frame hrun).1]

/-- What a step of `handle_connect` or `client_free` makes of the table. -/
inductive NextTable [DecidableEq κ] (b : Broker cfg κ) (me : κ) (pc : ConnPc cfg) :
    TopicTable cfg κ → Prop where
  | same : NextTable b me pc b.table
  | restore (i : SessionSlot cfg) (n : ℕ) (hn : n < SESSION_SUB_MAX) (hpc : pc = .restore i n)
      (hcount : n < (b.session i).subCount) : NextTable b me pc
        (b.table.topicSubscribe me ((b.session i).subFilters ⟨n, hn⟩)
          ((b.session i).subQos ⟨n, hn⟩)).1
  | unsubscribe (t : TopicTable cfg κ) (hpc : pc = .unsubscribe) (h : b.table.Removed me t) :
      NextTable b me pc t

theorem connStep_nextTable [DecidableEq κ] {env : Env κ} {b : Broker cfg κ} {me : κ}
    {pc pc' : ConnPc cfg} {h : Handled cfg κ} (hnext : connStep env b me pc = some (h, pc')) :
    NextTable b me pc h.broker.table := by
  have hreply : ∀ frame, (Handled.reply env me frame ⟨b, []⟩).broker.table = b.table := by
    intro frame
    cases frame <;> rfl
  cases pc with
  | restore i n =>
      simp only [connStep] at hnext
      split at hnext
      · rename_i hn
        cases hnext
        unfold restoreOne
        rw [if_pos hn.2]
        exact .restore i n hn.1 rfl hn.2
      · cases hnext
        exact .same
  | unsubscribe =>
      obtain ⟨r, hsection, heq⟩ := Option.map_eq_some_iff.mp hnext
      cases heq
      exact .unsubscribe r.1 rfl (unsubscribeSection_removed hsection).1
  | connack sess present =>
      cases hnext
      rw [hreply]
      exact .same
  | reply ack =>
      cases hnext
      rw [hreply]
      exact .same
  | will =>
      simp only [connStep] at hnext
      split_ifs at hnext
      cases hnext
      exact .same
  | saveInflight i n =>
      simp only [connStep] at hnext
      split at hnext <;> cases hnext <;> exact .same
  | delete =>
      cases hnext
      dsimp only
      split_ifs <;> exact .same
  | idle | waiting | recv | publish => cases hnext
  | _ => cases hnext; exact .same

/-- The CONNECT that a thread in `handle_connect` works on. -/
def ConnPc.connect? : ConnPc cfg → Option MqttConnect
  | .takeover conn | .assignId conn | .assignRest conn | .openSession conn => some conn
  | _ => none

theorem connStep_connect? [DecidableEq κ] {env : Env κ} {b : Broker cfg κ} {me : κ}
    {pc pc' : ConnPc cfg} {h : Handled cfg κ} (hnext : connStep env b me pc = some (h, pc'))
    {conn : MqttConnect} (hconn : pc'.connect? = some conn) : pc.connect? = some conn := by
  cases pc with
  | takeover | assignId | assignRest => cases hnext; exact hconn
  | connack sess present =>
      cases hnext
      rcases sess with - | i <;> cases present <;> cases hconn
  | restore | saveInflight | will =>
      simp only [connStep] at hnext
      split_ifs at hnext <;> cases hnext <;> cases hconn
  | loop | collect =>
      cases hnext
      split_ifs at hconn <;> cases hconn
  | lookup subs =>
      cases hnext
      split at hconn <;> cases hconn
  | unsubscribe =>
      obtain ⟨r, -, heq⟩ := Option.map_eq_some_iff.mp hnext
      cases heq
      split_ifs at hconn <;> cases hconn
  | idle | waiting | recv | publish => cases hnext
  | _ => cases hnext; cases hconn

/-- The places after the assignments to `client_t` are reached by them only. -/
theorem connStep_assigned [DecidableEq κ] {env : Env κ} {b : Broker cfg κ} {me : κ}
    {pc pc' : ConnPc cfg} {h : Handled cfg κ} (hnext : connStep env b me pc = some (h, pc'))
    {conn : MqttConnect} (hpc' : pc' = .assignRest conn ∨ pc' = .openSession conn) :
    pc = .assignId conn ∧ h.broker.clients me = (b.clients me).assignId conn ∨
      pc = .assignRest conn ∧ h.broker.clients me = (b.clients me).assignRest conn := by
  have hself : ∀ f : Client → Client, (b.updateClient me f).clients me = f (b.clients me) :=
    fun _ ↦ Function.update_self _ _ _
  cases pc with
  | assignId conn' =>
      cases hnext
      rcases hpc' with hpc' | hpc' <;> cases hpc'
      exact Or.inl ⟨rfl, hself (·.assignId conn)⟩
  | assignRest conn' =>
      cases hnext
      rcases hpc' with hpc' | hpc' <;> cases hpc'
      exact Or.inr ⟨rfl, hself (·.assignRest conn)⟩
  | connack sess present =>
      cases hnext
      rcases sess with - | i <;> cases present <;> rcases hpc' with hpc' | hpc' <;> cases hpc'
  | restore | saveInflight | will =>
      simp only [connStep] at hnext
      split_ifs at hnext <;> cases hnext <;> rcases hpc' with hpc' | hpc' <;> cases hpc'
  | loop | collect =>
      cases hnext
      split_ifs at hpc' <;> rcases hpc' with hpc' | hpc' <;> cases hpc'
  | lookup subs =>
      cases hnext
      split at hpc' <;> rcases hpc' with hpc' | hpc' <;> cases hpc'
  | unsubscribe =>
      obtain ⟨r, -, heq⟩ := Option.map_eq_some_iff.mp hnext
      cases heq
      split_ifs at hpc' <;> rcases hpc' with hpc' | hpc' <;> cases hpc'
  | idle | waiting | recv | publish => cases hnext
  | _ => cases hnext; rcases hpc' with hpc' | hpc' <;> cases hpc'

namespace Threads

variable [DecidableEq κ] [DecidableEq σ] {s s' : Threads cfg κ σ} {e : ThreadEvent κ σ}

theorem step_connect? (h : s.step e = some s') {k : κ} {conn : MqttConnect}
    (hconn : (s'.conn k).connect? = some conn) :
    (s.conn k).connect? = some conn ∨ conn.clientId.length < MQTT_CLIENT_ID_MAX := by
  by_cases hk : e.slot = some k
  · have hown := own_cases h hk
    generalize s'.broker.clients k = c, s'.conn k = pc at hown hconn
    cases hown with
    | connect env pkt conn' hpc htype hcheck =>
        cases hconn
        exact Or.inr (connectCheck_ok hcheck).clientId_lt
    | packet env pkt c pc hpc hstays hpc' =>
        rcases hpc' with rfl | rfl | ⟨pub, ack, rfl⟩ <;> cases hconn
    | next env h' pc hnext => exact Or.inl (connStep_connect? hnext hconn)
    | _ => cases hconn
  · rw [(step_untouched h hk).conn] at hconn
    exact Or.inl hconn

/-- A connection gets its client id by `handle_connect` only. -/
theorem step_clientId (h : s.step e = some s') (k : κ) :
    (s'.broker.clients k).clientId = (s.broker.clients k).clientId ∨
      (∃ fd, e = .alloc k fd ∧ (s'.broker.clients k).clientId = []) ∨
      ∃ env conn, e = .next k env ∧ s.conn k = .assignId conn ∧
        (s'.broker.clients k).clientId = conn.clientId.take (MQTT_CLIENT_ID_MAX - 1) := by
  by_cases hk : e.slot = some k
  · have hown := own_cases h hk
    generalize s'.broker.clients k = c, s'.conn k = pc at hown ⊢
    cases hown with
    | alloc fd => exact Or.inr (Or.inl ⟨fd, rfl, rfl⟩)
    | notConnect | connect | leave => exact Or.inl rfl
    | reject env pkt code c hpc htype hcheck hstays => exact Or.inl hstays.clientId
    | packet env pkt c pc hpc hstays => exact Or.inl hstays.clientId
    | tick env c hpc hstays => exact Or.inl hstays.clientId
    | publish env pub ack c hpc hstays => exact Or.inl hstays.clientId
    | will env c hpc hwill hstays => exact Or.inl hstays.clientId
    | next env h' pc hnext =>
        rcases connStep_stays hnext with hstays | ⟨conn, hat, hc⟩ | ⟨conn, -, hc⟩ | ⟨-, hc⟩
        · exact Or.inl hstays.clientId
        · refine Or.inr (Or.inr ⟨env, conn, rfl, hat, ?_⟩)
          rw [hc]
          rfl
        · rw [hc]
          exact Or.inl rfl
        · rw [hc]
          exact Or.inl rfl
  · exact Or.inl (step_untouched h hk).client.clientId

/-- What holds of the sessions and the subscriptions in every state. -/
structure Tidy (s : Threads cfg κ σ) : Prop where
  ids : ∀ k, (s.broker.clients k).clientId.length < MQTT_CLIENT_ID_MAX
  conns : ∀ k conn, (s.conn k).connect? = some conn → conn.clientId.length < MQTT_CLIENT_ID_MAX
  named : ∀ k conn, s.conn k = .assignRest conn ∨ s.conn k = .openSession conn →
    (s.broker.clients k).clientId = conn.clientId
  one : ∀ id, OneSession s.broker.sessions id
  short : PoolAll Session.ShortSubs s.broker.sessions
  table : s.broker.table.Distinct

omit [DecidableEq κ] [DecidableEq σ] in
theorem tidy_init [Inhabited κ] : (init cfg κ σ).Tidy where
  ids k := by
    have hid : ((init cfg κ σ).broker.clients k).clientId = [] := rfl
    rw [hid]
    decide
  conns _ _ h := nomatch h
  named _ _ h := h.elim (fun h ↦ (nomatch h)) fun h ↦ (nomatch h)
  one _ _ _ _ _ hs := absurd hs not_sessionAt_none
  short _ h := nomatch h
  table := ⟨fun _ _ h ↦ (nomatch h), fun _ _ _ _ h ↦ (nomatch h)⟩

theorem Tidy.named_step (hs : s.Tidy) (h : s.step e = some s') (k : κ) (conn : MqttConnect)
    (hconn : s'.conn k = .assignRest conn ∨ s'.conn k = .openSession conn) :
    (s'.broker.clients k).clientId = conn.clientId := by
  by_cases hk : e.slot = some k
  · have hown := own_cases h hk
    generalize s'.broker.clients k = c, s'.conn k = pc at hown hconn ⊢
    cases hown with
    | packet env pkt c pc hpc hstays hpc' =>
        rcases hpc' with rfl | rfl | ⟨pub, ack, rfl⟩ <;> rcases hconn with hconn | hconn <;>
          cases hconn
    | next env h' pc hnext =>
        rcases connStep_assigned hnext hconn with ⟨hpc, hc⟩ | ⟨hpc, hc⟩
        · rw [hc]
          exact take_clientId (hs.conns k conn (by rw [hpc]; rfl))
        · rw [hc]
          exact hs.named k conn (Or.inl hpc)
    | _ => rcases hconn with hconn | hconn <;> cases hconn
  · have huntouched := step_untouched h hk
    rw [huntouched.client.clientId]
    exact hs.named k conn (huntouched.conn ▸ hconn)

/-- The pool keeps one session for each client id and fitting filters. -/
theorem Tidy.pool_step (hs : s.Tidy) (h : s.step e = some s') :
    (∀ id, OneSession s'.broker.sessions id) ∧ PoolAll Session.ShortSubs s'.broker.sessions := by
  have hempty : ∀ x : Session, x.subCount = 0 → (∀ j, (x.queue j).inUse = false) → x.ShortSubs :=
    fun x hx _ j hj ↦ absurd (hx ▸ hj) (Nat.not_lt_zero _)
  have hcreate : ∀ (callocOk : Bool) (id : CStr), id.length < MQTT_CLIENT_ID_MAX →
      (∀ id', OneSession (sessionFindOrCreate s.broker.sessions callocOk id).1 id') ∧
        PoolAll Session.ShortSubs (sessionFindOrCreate s.broker.sessions callocOk id).1 :=
    fun callocOk id hlen ↦ ⟨fun id' ↦ (hs.one id').findOrCreate callocOk hlen,
      hs.short.findOrCreate hempty callocOk id⟩
  have hdelete : ∀ id : CStr, (∀ id', OneSession (sessionDelete s.broker.sessions id) id') ∧
      PoolAll Session.ShortSubs (sessionDelete s.broker.sessions id) :=
    fun id ↦ ⟨fun id' ↦ (hs.one id').delete id, hs.short.delete (fun _ hx ↦ hx) id⟩
  rcases pool_cases h with hsame | ⟨k, env, rfl, hcase⟩
  · exact ⟨fun id ↦ (hs.one id).poolSame hsame, hs.short.shortSubs_same hsame⟩
  · generalize s'.broker.sessions = pool at hcase ⊢
    cases hcase with
    | same hsame => exact ⟨fun id ↦ (hs.one id).poolSame hsame, hs.short.shortSubs_same hsame⟩
    | openSession conn hpc =>
        unfold connectSession
        split_ifs
        · exact hdelete conn.clientId
        · exact hcreate env.callocOk conn.clientId (hs.conns k conn (by rw [hpc]; rfl))
    | lookup subs hpc => exact hcreate env.callocOk _ (hs.ids k)
    | saveSubs i subs hpc =>
        refine ⟨fun id ↦ (hs.one id).saveSubs i subs, fun p' hp' ↦ ?_⟩
        obtain ⟨p, hp, rfl⟩ := Option.map_eq_some_iff.mp hp'
        exact poolAll_update (hs.short p hp) (Session.shortSubs_saveSubs _ _) i
    | delete hpc hclean => exact hdelete _

/-- Handled packets and restored sessions keep the filters of a client apart. -/
theorem Tidy.table_step (hs : s.Tidy) (h : s.step e = some s') : s'.broker.table.Distinct := by
  have hbegin : ∀ {a : Threads cfg κ σ} {who : κ ⊕ σ} {env : Env κ} {pub : MqttPublish},
      a.broker = s.broker → a.begin who env pub = some s' → s'.broker.table.Distinct := by
    intro a who env pub ha hb
    obtain ⟨r, hlocked, rfl⟩ := Option.map_eq_some_iff.mp hb
    rw [ha] at hlocked
    exact (publishLocked_serve hlocked).1 ▸ hs.table
  cases step_cases h with
  | alloc | notConnect | connect | late | tick | leave | send | offline => exact hs.table
  | reject k env pkt code hpc hcheck =>
      rw [goTo_broker, handleConnect, hcheck]
      exact (distinct_rule k).close _ ((distinct_rule k).reply env _ ⟨s.broker, []⟩ hs.table)
  | publishPacket k env pkt b pub ack hpc hb => exact (publishBegin_frame hb).2 ▸ hs.table
  | packet k env pkt h' hpc hb hrun => exact (distinct_rule k).dispatch hrun hs.table
  | next k env h' pc hjob hnext =>
      have hnew := connStep_nextTable hnext
      rw [goTo_broker]
      generalize h'.broker.table = t at hnew ⊢
      cases hnew with
      | same => exact hs.table
      | restore i n hn hpc hcount =>
          refine hs.table.topicSubscribe ?_
          unfold Broker.session at hcount ⊢
          cases hp : s.broker.sessions with
          | none =>
              rw [hp] at hcount
              cases hcount
          | some p =>
              rw [hp] at hcount
              exact hs.short p hp i ⟨n, hn⟩ hcount
      | unsubscribe t hpc hremoved => exact hs.table.of_sub fun _ _ ↦ hremoved.sub
  | publish k env pub ack s' hpc hb => exact hbegin (goTo_broker s k s.broker (.reply ack)) hb
  | will k env s' hpc hwill hb => exact hbegin (goTo_broker s k s.broker .clearWill) hb
  | foreign t env pub s' hjob hb => exact hbegin rfl hb

/-- Only its own thread changes the subscriptions of a connection. -/
theorem sameFor_step (h : s.step e = some s') {k : κ} (hk : e.slot ≠ some k) :
    s.broker.table.SameFor s'.broker.table k := by
  have hne : ∀ {j : κ}, e.slot = some j → k ≠ j := fun hj hkj ↦ hk (hkj ▸ hj)
  have hbegin : ∀ {a : Threads cfg κ σ} {who : κ ⊕ σ} {env : Env κ} {pub : MqttPublish},
      a.broker = s.broker → a.begin who env pub = some s' →
      s.broker.table.SameFor s'.broker.table k := by
    intro a who env pub ha hb
    obtain ⟨r, hlocked, rfl⟩ := Option.map_eq_some_iff.mp hb
    rw [ha] at hlocked
    exact (publishLocked_serve hlocked).1 ▸ .refl _ _
  cases step_cases h with
  | alloc | notConnect | connect | late | tick | leave | send | offline => exact .refl _ _
  | reject j env pkt code hpc hcheck =>
      rw [goTo_broker, handleConnect, hcheck]
      have hR : ThreadRule j fun b b' : Broker cfg κ ↦
        ∀ i, i ≠ j → b.table.SameFor b'.table i := sameFor_rule j
      exact hR.trans (hR.reply env _ ⟨s.broker, []⟩) (hR.close _) k (hne rfl)
  | publishPacket j env pkt b pub ack hpc hb => exact (publishBegin_frame hb).2 ▸ .refl _ _
  | packet j env pkt h' hpc hb hrun => exact (sameFor_rule j).dispatch hrun k (hne rfl)
  | next j env h' pc hjob hnext =>
      rcases (sameFor_rule j).connStep hnext with hothers | hmarked
      · exact hothers k (hne rfl)
      · rw [goTo_broker, connStep_marked hnext hmarked]
        exact .refl _ _
  | publish j env pub ack s' hpc hb => exact hbegin (goTo_broker s j s.broker (.reply ack)) hb
  | will j env s' hpc hwill hb => exact hbegin (goTo_broker s j s.broker .clearWill) hb
  | foreign t env pub s' hjob hb => exact hbegin rfl hb

theorem Tidy.step (hs : s.Tidy) (h : s.step e = some s') : s'.Tidy where
  ids k := by
    rcases step_clientId h k with hid | ⟨fd, -, hid⟩ | ⟨env, conn, -, -, hid⟩
    · exact hid ▸ hs.ids k
    · rw [hid]
      decide
    · rw [hid]
      exact lt_of_le_of_lt (List.length_take_le _ _) (by decide)
  conns k conn hconn := (step_connect? h hconn).elim (hs.conns k conn) id
  named := hs.named_step h
  one := (hs.pool_step h).1
  short := (hs.pool_step h).2
  table := hs.table_step h

theorem tidy_of_reach [Inhabited κ] {C : Threads cfg κ σ → ThreadEvent κ σ → Prop}
    (h : ReachBy C s) : s.Tidy := by
  induction h with
  | init => exact tidy_init
  | step _ _ hstep ih => exact ih.step hstep

end Threads

end MqttBroker
