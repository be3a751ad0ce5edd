import MqttBroker.Client.Inbound
import MqttBroker.Client.Offline
import MqttBroker.Client.Restore
import MqttBroker.Topic.Holders

/-!
# Sessions of clients that are away

How the filters of an offline session came there, and which steps of the threads take
subscriptions out of the table.
-/

namespace MqttBroker

variable {cfg : Config} {κ σ : Type}

/-- The session stores the filter. -/
def Session.Lists (s : Session) (filter : CStr) : Prop :=
  ∃ j : Fin SESSION_SUB_MAX, j.val < s.subCount ∧ s.subFilters j = filter

instance (s : Session) (filter : CStr) : Decidable (s.Lists filter) :=
  inferInstanceAs (Decidable (∃ _, _))

namespace Broker

/-- A session in use whose client is away stores the filter. -/
def StoredAway (b : Broker cfg κ) (i : SessionSlot cfg) (filter : CStr) : Prop :=
  (b.session i).Away ∧ (b.session i).Lists filter

instance (b : Broker cfg κ) (i : SessionSlot cfg) (filter : CStr) :
    Decidable (b.StoredAway i filter) :=
  inferInstanceAs (Decidable ((_ ∧ _) ∧ _))

/-- Sessions whose clients are away afterwards were there before, with the same
subscriptions. -/
def NoneGone (b b' : Broker cfg κ) : Prop :=
  ∀ i, (b'.session i).Away → (b.session i).Away ∧ (b.session i).SameSubs (b'.session i)

variable {b b' b'' : Broker cfg κ}

theorem NoneGone.of_sessions (h : b'.sessions = b.sessions) : NoneGone b b' := by
  intro i hi
  have hsession : b'.session i = b.session i := by simp [Broker.session, h]
  rw [hsession] at hi ⊢
  exact ⟨hi, .refl _⟩

theorem NoneGone.trans (h : NoneGone b b') (h' : NoneGone b' b'') : NoneGone b b'' := by
  intro i hi
  obtain ⟨hi', hsame'⟩ := h' i hi
  obtain ⟨hi, hsame⟩ := h i hi'
  exact ⟨hi, hsame.trans hsame'⟩

theorem NoneGone.storedAway (h : NoneGone b b') {i : SessionSlot cfg} {filter : CStr}
    (hi : b'.StoredAway i filter) : b.StoredAway i filter := by
  obtain ⟨haway, j, hj, hfilter⟩ := hi
  obtain ⟨haway, hsame⟩ := h i haway
  rw [hsame.subCount] at hj
  rw [hsame.subFilters] at hfilter
  exact ⟨haway, j, hj, hfilter⟩

theorem session_updateSession (b : Broker cfg κ) (i j : SessionSlot cfg) (f : Session → Session) :
    (b.updateSession i f).session j =
      if j = i ∧ b.sessions ≠ none then f (b.session j) else b.session j := by
  unfold Broker.session Broker.updateSession
  cases hp : b.sessions with
  | none => simp
  | some p =>
      by_cases hj : j = i
      · subst hj
        simp
      · simp [hj]

/-- One session is changed, but does not go offline. -/
theorem NoneGone.updateSession (b : Broker cfg κ) (i : SessionSlot cfg) {f : Session → Session}
    (hsame : (b.session i).SameSubs (f (b.session i)))
    (hoffline : (f (b.session i)).offline = true → (b.session i).offline = true) :
    NoneGone b (b.updateSession i f) := by
  intro j hj
  rw [session_updateSession] at hj ⊢
  split_ifs at hj ⊢ with hi
  · obtain ⟨rfl, -⟩ := hi
    exact ⟨⟨hsame.inUse ▸ hj.1, hoffline hj.2⟩, hsame⟩
  · exact ⟨hj, .refl _⟩

theorem NoneGone.offlinePublish (b : Broker cfg κ) (pub : MqttPublish) :
    NoneGone b { b with sessions := (sessionOfflinePublish b.sessions pub topicMatch).1 } := by
  unfold sessionOfflinePublish
  split_ifs
  · exact .of_sessions rfl
  · cases hp : b.sessions with
    | none => exact .of_sessions hp.symm
    | some p =>
        intro i hi
        obtain ⟨hgrow, huse, hid⟩ := (p i).offlinePublishOne_grows pub topicMatch
        have hsession : b.session i = p i := by simp [Broker.session, hp]
        rw [hsession]
        exact ⟨⟨huse ▸ hi.1, hgrow.offline ▸ hi.2⟩, hid, huse, hgrow.subCount, hgrow.subFilters,
          hgrow.subQos⟩

/-- Sessions that are away are not new. -/
theorem NoneGone.of_sessionAt (h : ∀ id i x, SessionAt b'.sessions id i x → x.offline = true →
    SessionAt b.sessions id i x) : NoneGone b b' := by
  intro i hi
  unfold Broker.session at hi ⊢
  cases hp' : b'.sessions with
  | none =>
      rw [hp'] at hi
      cases hi.1
  | some p' =>
      rw [hp'] at hi
      obtain ⟨p, hp, hpi, -, -⟩ := h (p' i).clientId i (p' i) (hp' ▸ sessionAt_some.mpr
        ⟨rfl, hi.1, rfl⟩) hi.2
      simp only [hp, hpi]
      exact ⟨hi, .refl _⟩

theorem NoneGone.findOrCreate (b : Broker cfg κ) (callocOk : Bool) (id : CStr) :
    NoneGone b { b with sessions := (sessionFindOrCreate b.sessions callocOk id).1 } := by
  refine .of_sessionAt fun id' j x hx hoffline ↦ ?_
  dsimp only at hx
  rcases sessionFindOrCreate_cases b.sessions callocOk id with
    ⟨i, y, -, heq⟩ | ⟨-, ⟨p, i, hp, -, heq⟩ | ⟨pool, hpool, heq⟩⟩
  · rwa [heq] at hx
  · rw [heq] at hx
    obtain ⟨hpx, huse, hid⟩ := sessionAt_some.mp hx
    by_cases hj : j = i
    · subst hj
      rw [Function.update_self] at hpx
      subst hpx
      cases hoffline
    · rw [Function.update_of_ne hj] at hpx
      exact (hp id' j x).mp (sessionAt_some.mpr ⟨hpx, huse, hid⟩)
  · rw [heq] at hx
    exact (hpool id' j x).mp hx

theorem NoneGone.delete (b : Broker cfg κ) (id : CStr) :
    NoneGone b { b with sessions := sessionDelete b.sessions id } :=
  .of_sessionAt fun _ _ _ hx _ ↦ sessionAt_delete hx

end Broker

section

variable [DecidableEq κ]

open Broker

/-- No handled packet makes a session go offline. -/
theorem noneGone_rule (me : κ) : HandlerRule me (@NoneGone cfg κ) where
  refl _ := .of_sessions rfl
  trans := .trans
  subscribe _ _ _ _ _ _ := .of_sessions rfl
  unsubscribe _ _ _ _ := .of_sessions rfl
  mark _ _ _ := .of_sessions rfl
  send _ _ := .of_sessions rfl
  ack _ _ := .of_sessions rfl
  pubrec _ _ _ _ := .of_sessions rfl
  retained _ _ _ _ _ := .of_sessions rfl
  publish _ b pub r _ hrun := by
    unfold topicPublish topicPublishInternal at hrun
    split at hrun
    · cases hrun
      exact .of_sessions rfl
    · obtain ⟨r', -, rfl⟩ := Option.map_eq_some_iff.mp hrun
      exact (NoneGone.offlinePublish b pub).trans (.of_sessions rfl)

/-- Of the steps of `handle_connect` and `client_free` only the one in `session_save_subs`
does. -/
theorem connStep_noneGone {env : Env κ} {b : Broker cfg κ} {me : κ} {pc pc' : ConnPc cfg}
    {h : Handled cfg κ} (hnext : connStep env b me pc = some (h, pc')) :
    NoneGone b h.broker ∨ ∃ i subs, pc = .saveSubs i subs ∧
      h.broker = b.updateSession i (·.saveSubs subs) := by
  cases pc with
  | saveSubs i subs => cases hnext; exact .inr ⟨i, subs, rfl, rfl⟩
  | openSession conn =>
      cases hnext
      refine .inl ?_
      dsimp only [connectSession]
      split_ifs
      · exact .delete b conn.clientId
      · exact .findOrCreate b env.callocOk conn.clientId
  | lookup subs => cases hnext; exact .inl (.findOrCreate b env.callocOk _)
  | delete =>
      cases hnext
      refine .inl ?_
      dsimp only
      split_ifs
      · exact .delete b _
      · exact .of_sessions rfl
  | connack sess present =>
      cases hnext
      exact .inl ((noneGone_rule me).reply env _ ⟨b, []⟩)
  | reply ack => cases hnext; exact .inl ((noneGone_rule me).reply env ack ⟨b, []⟩)
  | restore i n =>
      refine .inl ?_
      simp only [connStep] at hnext
      split at hnext
      · cases hnext
        unfold restoreOne
        split_ifs <;> exact .of_sessions rfl
      · cases hnext
        exact .of_sessions rfl
  | online i =>
      cases hnext
      exact .inl (.updateSession b i ⟨rfl, rfl, rfl, rfl, rfl⟩ fun hoffline ↦ by cases hoffline)
  | drain i =>
      cases hnext
      exact .inl ((NoneGone.updateSession b i (f := fun _ ↦ _)
        ((b.session i).sameSubs_drain (b.clients me) env.now (env.sendOk me)) id).trans
        (.of_sessions rfl))
  | saveInflight i n =>
      simp only [connStep] at hnext
      split at hnext
      · cases hnext
        refine .inl (.updateSession b i (.saveInflight _ _) fun hoffline ↦ ?_)
        exact (Session.foldl_saveInflight_owner [_] (b.session i)).2.2.symm.trans hoffline
      · cases hnext
        exact .inl (.of_sessions rfl)
  | will =>
      simp only [connStep] at hnext
      split_ifs at hnext
      cases hnext
      exact .inl (.of_sessions rfl)
  | unsubscribe =>
      obtain ⟨r, -, heq⟩ := Option.map_eq_some_iff.mp hnext
      cases heq
      exact .inl (.of_sessions rfl)
  | takeover | assignId | assignRest | loop | collect | closeFd | clearWill | release =>
      cases hnext
      exact .inl (.of_sessions rfl)
  | idle | waiting | recv | publish => cases hnext

/-! ## Which filters a step takes out of the table -/

namespace TopicTable

variable {t : TopicTable cfg κ}

/-- The subscription that the next section of `topic_unsubscribe_all` takes. -/
def nextOf (t : TopicTable cfg κ) (c : κ) : Option (Slot cfg) :=
  (List.finRange cfg.topicMaxSubs).find? fun i ↦ (t.subs i).inUse && (t.subs i).client = c

theorem Held.unsubscribeSection (hp : cfg.p2pDynamic = true) {f : CStr} (h : t.Held f) {c : κ}
    {r : TopicTable cfg κ × Option (List Notify)} (hrun : unsubscribeSection t c = some r)
    (hne : ∀ i, t.nextOf c = some i → f ≠ (t.subs i).filter) : r.1.Held f := by
  unfold MqttBroker.unsubscribeSection at hrun
  rw [if_pos hp] at hrun
  split at hrun
  · cases hrun
    exact h
  · next i hfind =>
      have huse := List.find?_some hfind
      simp only [Bool.and_eq_true, decide_eq_true_eq] at huse
      have hx : t.sub i = some ⟨c, (t.subs i).filter, (t.subs i).qos⟩ :=
        sub_eq_some_iff.mpr ⟨huse.1, huse.2, rfl, rfl⟩
      obtain ⟨t', hremove, hrun⟩ := Option.bind_eq_some_iff.mp hrun
      cases hrun
      exact (held_update_none (sub_removeSlot hremove) hx (hne i hfind)).mpr h

theorem Held.foldl_subscribeOne {f : CStr} (me : κ) (topics : List (CStr × UInt8))
    {r : TopicTable cfg κ × Bytes × List Notify} (h : r.1.Held f) :
    (topics.foldl (subscribeOne me) r).1.Held f := by
  induction topics generalizing r with
  | nil => exact h
  | cons e topics ih =>
      refine ih ?_
      unfold subscribeOne
      split_ifs
      · exact h
      · exact h.topicSubscribe me e.1 e.2

theorem Held.unsubscribeEach {f : CStr} {me : κ} {topics : List CStr} (h : t.Held f)
    {r : TopicTable cfg κ × Bool × List Notify} (hrun : unsubscribeEach me topics t = some r)
    (hnot : f ∉ topics.takeWhile topicFilterValid) : r.1.Held f := by
  induction topics generalizing t r with
  | nil =>
      cases hrun
      exact h
  | cons g topics ih =>
      unfold MqttBroker.unsubscribeEach at hrun
      rcases ite_eq_iff.mp hrun with ⟨-, hrun⟩ | ⟨hvalid, hrun⟩
      · cases hrun
        exact h
      · have hvalid : topicFilterValid g = true := by simpa using hvalid
        rw [List.takeWhile_cons_of_pos hvalid, List.mem_cons, not_or] at hnot
        obtain ⟨r₁, hfirst, hrun⟩ := Option.bind_eq_some_iff.mp hrun
        obtain ⟨r₂, hrest, hrun⟩ := Option.bind_eq_some_iff.mp hrun
        cases hrun
        exact ih (r := r₂) (h.topicUnsubscribe hfirst hnot.1) hrest hnot.2

end TopicTable

/-- The filters that an UNSUBSCRIBE names, up to the first one that is not valid. -/
def unsubscribed (pkt : MqttPacket) : List CStr :=
  if pkt.headerOk ∧ pkt.type = PacketType.unsubscribe then
    ((packetParseUnsubscribe pkt 8).map fun r ↦ r.2.takeWhile topicFilterValid).getD []
  else []

theorem callPublish_table {env : Env κ} {b : Broker cfg κ} {pub : MqttPublish}
    {h : Handled cfg κ} (hrun : callPublish env b pub = some h) : h.broker.table = b.table := by
  obtain ⟨r, hr, rfl⟩ := Option.map_eq_some_iff.mp hrun
  exact (topicPublishInternal_frame hr).1

theorem handlePublish_table {env : Env κ} {b : Broker cfg κ} {me : κ} {pkt : MqttPacket}
    {h : Handled cfg κ} (hrun : handlePublish env b me pkt = some h) :
    h.broker.table = b.table := by
  unfold handlePublish at hrun
  split at hrun
  · cases hrun
    rfl
  · split_ifs at hrun
    iterate 3
      · cases hrun
        rfl
    unfold publishAccepted at hrun
    split_ifs at hrun
    · dsimp only at hrun
      split at hrun
      · obtain ⟨h', hcall, hrun⟩ := Option.bind_eq_some_iff.mp hrun
        cases hrun
        rw [Handled.table_reply]
        exact (callPublish_table hcall).trans rfl
      · cases hrun
        exact Handled.table_reply env me _ ⟨b, []⟩
      · cases hrun
        exact Handled.table_reply env me _ ⟨b, []⟩
    · obtain ⟨h', hcall, hrun⟩ := Option.bind_eq_some_iff.mp hrun
      cases hrun
      rw [Handled.table_reply]
      exact callPublish_table hcall
    · obtain ⟨h', hcall, hrun⟩ := Option.bind_eq_some_iff.mp hrun
      cases hrun
      exact callPublish_table hcall

theorem handleSubscribe_held {env : Env κ} {b : Broker cfg κ} {me : κ} {pkt : MqttPacket}
    {f : CStr} (hf : b.table.Held f) : (handleSubscribe env b me pkt).broker.table.Held f := by
  have hretained : ∀ (l : List ((CStr × UInt8) × UInt8)) (h : Handled cfg κ),
      (l.foldl (retainedOne env me) h).broker.table = h.broker.table := by
    intro l
    induction l with
    | nil => exact fun _ ↦ rfl
    | cons e l ih =>
        intro h
        refine (ih _).trans ?_
        unfold retainedOne
        split_ifs <;> rfl
  unfold handleSubscribe
  split
  · exact hf
  · next topics _ =>
      dsimp only
      rw [hretained, Handled.table_reply]
      exact TopicTable.Held.foldl_subscribeOne me topics hf

theorem handleUnsubscribe_held {env : Env κ} {b : Broker cfg κ} {me : κ} {pkt : MqttPacket}
    {h : Handled cfg κ} (hrun : handleUnsubscribe env b me pkt = some h) {f : CStr}
    (hf : b.table.Held f) (hnot : ∀ id topics, packetParseUnsubscribe pkt 8 = some (id, topics) →
      f ∉ topics.takeWhile topicFilterValid) : h.broker.table.Held f := by
  unfold handleUnsubscribe at hrun
  split at hrun
  · cases hrun
    exact hf
  · next id topics hparse =>
      obtain ⟨⟨t, ok, n⟩, htable, hrun⟩ := Option.bind_eq_some_iff.mp hrun
      cases hrun
      have ht : t.Held f := hf.unsubscribeEach htable (hnot id topics hparse)
      split_ifs
      · rw [Handled.table_reply]
        exact ht
      · exact ht

/-- A handled packet keeps every held filter but those it unsubscribes. -/
theorem dispatch_held {env : Env κ} {b : Broker cfg κ} {me : κ} {pkt : MqttPacket}
    {h : Handled cfg κ} (hrun : dispatch env b me pkt = some h) {f : CStr}
    (hf : b.table.Held f) (hnot : f ∉ unsubscribed pkt) : h.broker.table.Held f := by
  unfold dispatch at hrun
  dsimp only at hrun
  have hf : (b.updateClient me fun c ↦ { c with lastSeenMs := env.now }).table.Held f := hf
  generalize b.updateClient me (fun c ↦ { c with lastSeenMs := env.now }) = b at hrun hf
  rcases ite_eq_iff.mp hrun with ⟨-, hrun⟩ | ⟨hok, hrun⟩
  · cases hrun
    exact hf
  have hok : pkt.headerOk = true := by simpa using hok
  cases dispatchType_cases hrun with
  | connect | disconnect | ack | pubrec | ignored => exact hf
  | publish _ hrun => rwa [handlePublish_table hrun]
  | subscribe => exact handleSubscribe_held hf
  | unsubscribe htype hrun =>
      refine handleUnsubscribe_held hrun hf fun id topics hparse ↦ ?_
      simpa [unsubscribed, hok, htype, hparse] using hnot
  | pingreq => rwa [handlePingreq, Handled.table_reply]
  | pubrel => rwa [handlePubrel, Handled.table_reply]

theorem topicGetClientSubs_subset {t : TopicTable cfg κ} {c : κ} {n : ℕ} {x : CStr × UInt8}
    (hx : x ∈ t.topicGetClientSubs c n) : x ∈ t.subsOf c := by
  obtain ⟨i, hi, rfl⟩ := List.mem_map.mp hx
  have huse := (List.mem_filter.mp (List.mem_of_mem_take hi)).2
  simp only [Bool.and_eq_true, decide_eq_true_eq] at huse
  exact TopicTable.mem_subsOf.mpr ⟨i, TopicTable.sub_eq_some_iff.mpr ⟨huse.1, huse.2, rfl, rfl⟩⟩

/-- The subscriptions that `client_free` has copied and not stored yet. -/
def ConnPc.copied : ConnPc cfg → List (CStr × UInt8)
  | .lookup subs | .saveSubs _ subs => subs
  | _ => []

theorem connStep_copied {env : Env κ} {b : Broker cfg κ} {me : κ} {pc pc' : ConnPc cfg}
    {h : Handled cfg κ} (hnext : connStep env b me pc = some (h, pc')) {x : CStr × UInt8}
    (hx : x ∈ pc'.copied) : h.broker.table = b.table ∧ (x ∈ pc.copied ∨ x ∈ b.table.subsOf me) := by
  cases pc with
  | collect =>
      cases hnext
      refine ⟨rfl, .inr ?_⟩
      split_ifs at hx
      · cases hx
      · exact topicGetClientSubs_subset hx
  | lookup subs =>
      cases hnext
      refine ⟨rfl, .inl ?_⟩
      split at hx
      · exact hx
      · cases hx
  | connack sess present =>
      cases hnext
      rcases sess with - | i <;> cases present <;> cases hx
  | restore | saveInflight | will =>
      simp only [connStep] at hnext
      split_ifs at hnext <;> cases hnext <;> cases hx
  | loop =>
      cases hnext
      split_ifs at hx <;> cases hx
  | unsubscribe =>
      obtain ⟨r, -, heq⟩ := Option.map_eq_some_iff.mp hnext
      cases heq
      split_ifs at hx <;> cases hx
  | idle | waiting | recv | publish => cases hnext
  | _ => cases hnext; cases hx

end

/-! ## The threads -/

namespace Threads

variable [DecidableEq κ] [DecidableEq σ] {s s' : Threads cfg κ σ} {e : ThreadEvent κ σ}

/-- The filters that the thread's connection gives up in a step. -/
def givenUp (s : Threads cfg κ σ) : ThreadEvent κ σ → List CStr
  | .packet k _ pkt =>
      if (s.broker.clients k).state = .connected then unsubscribed pkt else []
  | .next k _ =>
      match s.conn k with
      | .unsubscribe => (s.broker.table.nextOf k).toList.map fun i ↦ (s.broker.table.subs i).filter
      | _ => []
  | _ => []

/-- A filter is held on if it is not given up, or if another client holds it. -/
theorem held_step (hp : cfg.p2pDynamic = true) (h : s.step e = some s') {f : CStr}
    (hf : s.broker.table.Held f) (hother : f ∈ s.givenUp e →
      ∃ i, s.broker.table.HoldsAt f i ∧ e.slot ≠ some (s.broker.table.subs i).client) :
    s'.broker.table.Held f := by
  by_cases hgiven : f ∈ s.givenUp e
  · obtain ⟨i, ⟨huse, rfl⟩, hne⟩ := hother hgiven
    have hx : s.broker.table.sub i = some ⟨(s.broker.table.subs i).client,
        (s.broker.table.subs i).filter, (s.broker.table.subs i).qos⟩ :=
      TopicTable.sub_eq_some_iff.mpr ⟨huse, rfl, rfl, rfl⟩
    exact ⟨i, TopicTable.holdsAt_iff.mpr ⟨_, (sameFor_step h hne i _ rfl).mpr hx, rfl⟩⟩
  have hbegin : ∀ {a : Threads cfg κ σ} {who : κ ⊕ σ} {env : Env κ} {pub : MqttPublish},
      a.broker = s.broker → a.begin who env pub = some s' → s'.broker.table.Held f := by
    intro a who env pub ha hb
    obtain ⟨r, hlocked, rfl⟩ := Option.map_eq_some_iff.mp hb
    rw [ha] at hlocked
    exact (publishLocked_serve hlocked).1 ▸ hf
  cases step_cases h with
  | alloc | notConnect | connect | late | tick | leave | send | offline => exact hf
  | reject k env pkt code hpc hcheck =>
      rw [goTo_broker, handleConnect, hcheck]
      exact (Handled.table_reply env k _ (⟨s.broker, []⟩ : Handled cfg κ)).symm ▸ hf
  | publishPacket k env pkt b pub ack hpc hb => exact (publishBegin_frame hb).2 ▸ hf
  | packet k env pkt h' hpc hb hrun hstate =>
      refine dispatch_held hrun hf fun hmem ↦ hgiven ?_
      have hok : pkt.headerOk = true := by
        by_contra hok
        simp [unsubscribed, hok] at hmem
      simpa [givenUp, hstate hok] using hmem
  | next k env h' pc hjob hnext =>
      rw [goTo_broker]
      by_cases hpc : s.conn k = .unsubscribe
      · rw [hpc] at hnext
        obtain ⟨r, hsection, heq⟩ := Option.map_eq_some_iff.mp hnext
        cases heq
        refine hf.unsubscribeSection hp hsection fun i hi hfi ↦ hgiven ?_
        simp [givenUp, hpc, hi, hfi]
      · have hnew := connStep_nextTable hnext
        generalize h'.broker.table = t at hnew ⊢
        cases hnew with
        | same => exact hf
        | restore => exact hf.topicSubscribe k _ _
        | unsubscribe t hat => exact absurd hat hpc
  | publish k env pub ack s' hpc hb => exact hbegin (goTo_broker s k s.broker (.reply ack)) hb
  | will k env s' hpc hwill hb => exact hbegin (goTo_broker s k s.broker .clearWill) hb
  | foreign t env pub s' hjob hb => exact hbegin rfl hb

/-- Sessions go offline in `session_save_subs` only. -/
theorem noneGone_step (h : s.step e = some s') : Broker.NoneGone s.broker s'.broker ∨
    ∃ k env i subs, e = .next k env ∧ s.conn k = .saveSubs i subs ∧
      s'.broker = s.broker.updateSession i (·.saveSubs subs) := by
  have hbegin : ∀ {a : Threads cfg κ σ} {who : κ ⊕ σ} {env : Env κ} {pub : MqttPublish},
      a.broker = s.broker → a.begin who env pub = some s' →
      Broker.NoneGone s.broker s'.broker := by
    intro a who env pub ha hb
    obtain ⟨r, hlocked, rfl⟩ := Option.map_eq_some_iff.mp hb
    rw [ha] at hlocked
    exact .of_sessions (publishLocked_sessions hlocked)
  cases step_cases h with
  | alloc | notConnect | connect | late | tick | leave | send => exact .inl (.of_sessions rfl)
  | reject k env pkt code hpc hcheck =>
      refine .inl ?_
      rw [goTo_broker, handleConnect, hcheck]
      have hR : HandlerRule k (@Broker.NoneGone cfg κ) := noneGone_rule k
      exact (hR.reply env _ ⟨s.broker, []⟩).trans (hR.close _)
  | publishPacket k env pkt b pub ack hpc hb =>
      exact .inl (.of_sessions (publishBegin_frame hb).1)
  | packet k env pkt h' hpc hb hrun => exact .inl ((noneGone_rule k).dispatch hrun)
  | next k env h' pc hjob hnext =>
      refine (connStep_noneGone hnext).imp_right ?_
      rintro ⟨i, subs, hpc, heq⟩
      exact ⟨k, env, i, subs, rfl, hpc, heq⟩
  | publish k env pub ack s' hpc hb =>
      exact .inl (hbegin (goTo_broker s k s.broker (.reply ack)) hb)
  | will k env s' hpc hwill hb => exact .inl (hbegin (goTo_broker s k s.broker .clearWill) hb)
  | foreign t env pub s' hjob hb => exact .inl (hbegin rfl hb)
  | offline who pub => exact .inl (.offlinePublish s.broker pub)

/-- What `client_free` has copied is still in the table. -/
def CopiesHeld (s : Threads cfg κ σ) : Prop :=
  ∀ k, ∀ x ∈ (s.conn k).copied, x ∈ s.broker.table.subsOf k

theorem CopiesHeld.step (hcopies : s.CopiesHeld) (h : s.step e = some s') : s'.CopiesHeld := by
  intro k x hx
  by_cases hk : e.slot = some k
  · have hown := own_cases h hk
    generalize hpc' : s'.conn k = pc at hown hx
    generalize s'.broker.clients k = c at hown
    cases hown with
    | packet env pkt c pc hpc hstays hends =>
        rcases hends with rfl | rfl | ⟨pub, ack, rfl⟩ <;> cases hx
    | next env h' pc hnext =>
        cases step_cases h with
        | next _ _ h'' pc' hjob hnext' =>
            cases hnext.symm.trans hnext'
            obtain ⟨htable, hbefore⟩ := connStep_copied hnext hx
            rw [goTo_broker, htable]
            exact hbefore.elim (hcopies k x) id
    | _ => cases hx
  · rw [(step_untouched h hk).conn] at hx
    rw [(sameFor_step h hk).subsOf]
    exact hcopies k x hx

/-- The session that is stored to in a step. -/
def savedTo (s : Threads cfg κ σ) : ThreadEvent κ σ → Option (SessionSlot cfg)
  | .next k _ =>
      match s.conn k with
      | .saveSubs i _ => some i
      | _ => none
  | _ => none

theorem storedAway_step (h : s.step e = some s') {i : SessionSlot cfg} (hi : s.savedTo e ≠ some i)
    {f : CStr} (hf : s'.broker.StoredAway i f) : s.broker.StoredAway i f := by
  rcases noneGone_step h with hnone | ⟨k, env, j, subs, rfl, hpc, heq⟩
  · exact hnone.storedAway hf
  · have hij : i ≠ j := by
      rintro rfl
      simp [savedTo, hpc] at hi
    have hsession : s'.broker.session i = s.broker.session i := by
      rw [heq, Broker.session_updateSession, if_neg fun h ↦ hij h.1]
    unfold Broker.StoredAway at hf
    rwa [hsession] at hf

/-- Somebody holds every filter that is stored for a client that is away. -/
def StoredHeld (s : Threads cfg κ σ) : Prop :=
  ∀ i f, s.broker.StoredAway i f → s.broker.table.Held f

/-- What a step gives up and a session stores, another client holds. -/
def Covered (s : Threads cfg κ σ) (e : ThreadEvent κ σ) : Prop :=
  ∀ f ∈ s.givenUp e, (∃ i, s.broker.StoredAway i f) →
    ∃ i, s.broker.table.HoldsAt f i ∧ e.slot ≠ some (s.broker.table.subs i).client

instance (s : Threads cfg κ σ) : DecidablePred s.Covered := fun e ↦
  inferInstanceAs (Decidable (∀ f ∈ s.givenUp e, _ → _))

omit [DecidableEq σ] in
theorem CopiesHeld.held (hcopies : s.CopiesHeld) (ht : s.Tidy) {k : κ} {i : SessionSlot cfg}
    {subs : List (CStr × UInt8)} (hpc : s.conn k = .saveSubs i subs) {f : CStr}
    (hf : ((s.broker.session i).saveSubs subs).Lists f) : s.broker.table.Held f := by
  obtain ⟨j, hj, rfl⟩ := hf
  have hlt : j.val < subs.length := lt_of_lt_of_le hj (min_le_left _ _)
  have hmem := hcopies k subs[j.val] (by rw [hpc]; exact List.getElem_mem hlt)
  simp only [Session.saveSubs, List.getElem?_eq_getElem hlt]
  generalize subs[j.val] = x at hmem ⊢
  obtain ⟨slot, hslot⟩ := TopicTable.mem_subsOf.mp hmem
  have hshort := ht.table.short slot _ hslot
  simp only [MQTT_TOPIC_MAX] at hshort ⊢
  rw [List.take_of_length_le (by omega)]
  exact ⟨slot, TopicTable.holdsAt_iff.mpr ⟨_, hslot, rfl⟩⟩

theorem StoredHeld.step (hp : cfg.p2pDynamic = true) (hstored : s.StoredHeld)
    (hcopies : s.CopiesHeld) (ht : s.Tidy) (hcovered : s.Covered e) (h : s.step e = some s') :
    s'.StoredHeld := by
  intro i f hf
  have hstays : s.broker.StoredAway i f → s'.broker.table.Held f := fun hi ↦
    held_step hp h (hstored i f hi) fun hgiven ↦ hcovered f hgiven ⟨i, hi⟩
  rcases noneGone_step h with hnone | ⟨k, env, j, subs, rfl, hpc, heq⟩
  · exact hstays (hnone.storedAway hf)
  · by_cases hi : i = j ∧ s.broker.sessions ≠ none
    · have hsession : s'.broker.session i = (s.broker.session i).saveSubs subs := by
        rw [heq, Broker.session_updateSession, if_pos hi]
      obtain ⟨rfl, -⟩ := hi
      have hlists := hf.2
      rw [hsession] at hlists
      have hheld := hcopies.held ht hpc hlists
      rw [heq]
      exact hheld
    · have hsession : s'.broker.session i = s.broker.session i := by
        rw [heq, Broker.session_updateSession, if_neg hi]
      unfold Broker.StoredAway at hf
      rw [hsession] at hf
      exact hstays hf

end Threads

end MqttBroker
