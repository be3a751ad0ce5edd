import MqttBroker.Topic.Table
import MqttBroker.Session

/-!
# Publishing

`topic_publish` of `topic.c`: the retained store, the two fan-out paths and
the queues of offline sessions.
-/

namespace MqttBroker

open IntrusiveList

def TOPIC_RETAIN_MAX : ℕ := 8

structure RetainEntry where
  topic : CStr
  payload : Bytes
  qos : UInt8
  inUse : Bool
  deriving DecidableEq, Repr

instance : Inhabited RetainEntry := ⟨⟨[], [], 0, false⟩⟩

/-- The static variable `retains`; `none` before the first allocation. -/
abbrev RetainStore := Option (Fin TOPIC_RETAIN_MAX → RetainEntry)

/-- The state that one publish reads and changes. -/
structure Broker (cfg : Config) (κ : Type) where
  table : TopicTable cfg κ
  retains : RetainStore
  clients : κ → Client
  sessions : SessionPool cfg

/-- What the platform answers while one call runs. -/
structure Env (κ : Type) where
  /-- `plat_uptime_ms()` -/
  now : ℤ
  /-- whether `calloc` finds memory -/
  callocOk : Bool
  /-- whether the transport takes what is sent to a client -/
  sendOk : κ → Bool

variable {κ : Type} {cfg : Config}

/-! ## The retained store -/

/-- `retain_store_ensure`. -/
def retainStoreEnsure (retains : RetainStore) (callocOk : Bool) : RetainStore :=
  match retains with
  | some r => some r
  | none => if callocOk then some fun _ ↦ default else none

/-- The update of the retained store for a publish with RETAIN set. -/
def retainUpdate (r : Fin TOPIC_RETAIN_MAX → RetainEntry) (pub : MqttPublish) :
    Fin TOPIC_RETAIN_MAX → RetainEntry :=
  let slots := List.finRange TOPIC_RETAIN_MAX
  let found := slots.find? fun i ↦ (r i).inUse && (r i).topic = pub.topic
  if pub.payload = [] then
    match found with
    | some i => Function.update r i { r i with inUse := false }
    | none => r
  else
    match found.or (slots.find? fun i ↦ !(r i).inUse) with
    | some i =>
        Function.update r i ⟨pub.topic.take (MQTT_TOPIC_MAX - 1), pub.payload, pub.qos, true⟩
    | none => r

/-! ## Fan-out -/

section

variable (t : TopicTable cfg κ) (topic : CStr)

/-- The slots of the bucket's list that the loop does not skip. -/
def exactHits : Option (List (Slot cfg)) :=
  (walk t.exactNext cfg.topicMaxSubs (t.exactHeads (topicBucket cfg topic))).map
    (List.filter fun i ↦ (t.subs i).inUse && (t.subs i).filter = topic)

/-- The slots of the wildcard list that the loop does not skip. -/
def wildcardHits : Option (List (Slot cfg)) :=
  (walk t.wildcardNext cfg.topicMaxSubs t.wildcardHead).map
    (List.filter fun i ↦ (t.subs i).inUse && topicMatch (t.subs i).filter topic)

/-- Both loops of a fan-out path, in their order. -/
def hits : Option (List (Slot cfg)) := do
  let exact ← exactHits t topic
  let wild ← wildcardHits t topic
  some (exact ++ wild)

end

structure DeliveryTarget (κ : Type) where
  client : κ
  qos : UInt8
  packetId : UInt16
  deriving DecidableEq

variable [DecidableEq κ]

/-- `targets[target_count++] = subs[idx].client` unless it is there already. -/
def addTarget (t : TopicTable cfg κ) (targets : List κ) (i : Slot cfg) : List κ :=
  if (t.subs i).client ∈ targets then targets else targets ++ [(t.subs i).client]

/-- `client_send` of the shared frame to each target. -/
def sendShared (env : Env κ) (clients : κ → Client) (targets : List κ) : κ → Client :=
  targets.foldl (fun clients c ↦
    Function.update clients c ((clients c).clientSend (env.sendOk c))) clients

/-- `topic_publish_qos0_locked`: the clients and what was sent to whom. -/
def topicPublishQos0 (env : Env κ) (t : TopicTable cfg κ) (clients : κ → Client)
    (pub : MqttPublish) : Option ((κ → Client) × List (κ × Bytes)) := do
  let slots ← hits t pub.topic
  let targets := slots.foldl (addTarget t) []
  match packetBuildPublish { pub with retain := 0, packetId := 0 }
      (MQTT_MAX_PACKET_SIZE + 8) with
  | none => some (clients, [])
  | some frame => some (sendShared env clients targets, targets.map fun c ↦ (c, frame))

/-- What the loops of `topic_publish_qos_locked` build up. -/
structure Collected (κ : Type) where
  seen : List κ
  targets : List (DeliveryTarget κ)
  clients : κ → Client

/-- `add_qos_delivery_target_locked`. -/
def addQosDeliveryTarget (t : TopicTable cfg κ) (pub : MqttPublish) (st : Collected κ)
    (i : Slot cfg) : Collected κ :=
  if cfg.topicMaxSubs ≤ st.targets.length then st
  else
    let c := (t.subs i).client
    let qos := if pub.qos < (t.subs i).qos then pub.qos else (t.subs i).qos
    if 0 < qos then
      let id := Client.advancePacketId (st.clients c).nextPacketId
      { st with
        targets := st.targets ++ [⟨c, qos, id⟩]
        clients := Function.update st.clients c { st.clients c with nextPacketId := id } }
    else { st with targets := st.targets ++ [⟨c, qos, 0⟩] }

/-- One round of the loops of `topic_publish_qos_locked`. -/
def collectQos (t : TopicTable cfg κ) (pub : MqttPublish) (st : Collected κ) (i : Slot cfg) :
    Collected κ :=
  if (t.subs i).client ∈ st.seen then st
  else addQosDeliveryTarget t pub { st with seen := st.seen ++ [(t.subs i).client] } i

/-- The frame that `topic_publish_qos_locked` builds for a target. -/
def targetPublish (pub : MqttPublish) (target : DeliveryTarget κ) : MqttPublish :=
  { pub with retain := 0, qos := target.qos, packetId := target.packetId }

/-- One round of the delivery loop of `topic_publish_qos_locked`. -/
def deliverQos (env : Env κ) (pub : MqttPublish) (r : (κ → Client) × List (κ × Bytes))
    (target : DeliveryTarget κ) : (κ → Client) × List (κ × Bytes) :=
  let out := targetPublish pub target
  match packetBuildPublish out (MQTT_MAX_PACKET_SIZE + 8) with
  | none => r
  | some buf =>
      let c := (r.1 target.client).sendAndStore out buf env.now (env.sendOk target.client)
      (Function.update r.1 target.client c, r.2 ++ [(target.client, buf)])

/-- `topic_publish_qos_locked`. -/
def topicPublishQos (env : Env κ) (t : TopicTable cfg κ) (clients : κ → Client)
    (pub : MqttPublish) : Option ((κ → Client) × List (κ × Bytes)) := do
  let slots ← hits t pub.topic
  let st := slots.foldl (collectQos t pub) ⟨[], [], clients⟩
  some (st.targets.foldl (deliverQos env pub) (st.clients, []))

/-! ## The whole call -/

/-- What one call of `topic_publish_internal` returns and causes. -/
structure Published (cfg : Config) (κ : Type) where
  broker : Broker cfg κ
  rc : ℤ
  /-- the frames passed to `client_send`, in order -/
  sent : List (κ × Bytes)
  /-- the calls of `p2p_publish_from_local` -/
  propagated : List MqttPublish

/-- The part of `topic_publish_internal` on the retained store; `none` where
the store is needed and cannot be allocated. -/
def retainPublish (retains : RetainStore) (callocOk : Bool) (pub : MqttPublish) :
    Option RetainStore :=
  if pub.retain = 0 then some retains
  else
    match retainStoreEnsure retains callocOk with
    | none => none
    | some r => some (some (retainUpdate r pub))

/-- The fan-out path that the QoS selects. -/
def topicFanOut (env : Env κ) (t : TopicTable cfg κ) (clients : κ → Client)
    (pub : MqttPublish) : Option ((κ → Client) × List (κ × Bytes)) :=
  if pub.qos = 0 then topicPublishQos0 env t clients pub
  else topicPublishQos env t clients pub

/-- `topic_publish_internal`.  It is `none` only if a list of the table is
cyclic, where the source would not return. -/
def topicPublishInternal (env : Env κ) (b : Broker cfg κ) (pub : MqttPublish)
    (propagate : Bool) : Option (Published cfg κ) :=
  match retainPublish b.retains env.callocOk pub with
  | none => some ⟨b, -1, [], []⟩
  | some retains =>
      (topicFanOut env b.table b.clients pub).map fun r ↦
        ⟨⟨b.table, retains, r.1, (sessionOfflinePublish b.sessions pub topicMatch).1⟩, 0, r.2,
          if cfg.p2pDynamic ∧ propagate then [pub] else []⟩

/-- The PUBLISH for a retained entry and the client after its id was taken. -/
def retainedPublish (e : RetainEntry) (qos : UInt8) (c : Client) : MqttPublish × Client :=
  let qos := if qos < e.qos then qos else e.qos
  let id := if 0 < qos then Client.advancePacketId c.nextPacketId else 0
  (⟨e.topic.take (MQTT_TOPIC_MAX - 1), e.payload, qos, 1, 0, id⟩,
    if 0 < qos then { c with nextPacketId := id } else c)

/-- One round of the loop of `topic_deliver_retained` under the lock. -/
def collectRetained (filter : CStr) (qos : UInt8) (r : Client × List (MqttPublish × Bytes))
    (e : RetainEntry) : Client × List (MqttPublish × Bytes) :=
  if !e.inUse ∨ !topicMatch filter e.topic then r
  else
    let (pub, c) := retainedPublish e qos r.1
    match packetBuildPublish pub (MQTT_MAX_PACKET_SIZE + 8) with
    | some buf => (c, r.2 ++ [(pub, buf)])
    | none => (c, r.2)

/-- `topic_deliver_retained`: the client and the frames sent to it. -/
def topicDeliverRetained (retains : RetainStore) (c : Client) (filter : CStr) (qos : UInt8)
    (now : ℤ) (sendOk : Bool) : Client × List Bytes :=
  match retains with
  | none => (c, [])
  | some r =>
      let (c, pkts) := ((List.finRange TOPIC_RETAIN_MAX).map r).foldl
        (collectRetained filter qos) (c, [])
      (pkts.foldl (fun c p ↦ c.sendAndStore p.1 p.2 now sendOk) c, pkts.map Prod.snd)

def topicPublish (env : Env κ) (b : Broker cfg κ) (pub : MqttPublish) :
    Option (Published cfg κ) := topicPublishInternal env b pub true

def topicPublishRemote (env : Env κ) (b : Broker cfg κ) (pub : MqttPublish) :
    Option (Published cfg κ) := topicPublishInternal env b pub false

/-! ## What sending changes -/

open Client

/-- What a relation between connections has to allow, for every sending to keep
to it.  `P` is what the messages that are built and stored satisfy. -/
structure SendRule (P : MqttPublish → Prop) (R : Client → Client → Prop) : Prop where
  refl : ∀ c, R c c
  trans : ∀ {a b c}, R a b → R b c → R a c
  send : ∀ c sendOk, R c (c.clientSend sendOk)
  takeId : ∀ c id, R c { c with nextPacketId := id }
  store : ∀ c pub buf now, P pub →
    packetBuildPublish pub (MQTT_MAX_PACKET_SIZE + 8) = some buf →
    R c (c.inflightStore pub.packetId buf pub.qos now)

namespace SendRule

variable {P : MqttPublish → Prop} {R : Client → Client → Prop} (hR : SendRule P R)

include hR

omit [DecidableEq κ] in
theorem sendAndStore {pub : MqttPublish} (hpub : P pub) {buf : Bytes}
    (hbuild : packetBuildPublish pub (MQTT_MAX_PACKET_SIZE + 8) = some buf) (c : Client) (now : ℤ)
    (sendOk : Bool) : R c (c.sendAndStore pub buf now sendOk) := by
  unfold Client.sendAndStore
  dsimp only
  split_ifs
  · exact hR.trans (hR.send c sendOk) (hR.store _ pub buf now hpub hbuild)
  · exact hR.send c sendOk

omit [DecidableEq κ] in
theorem drain {s : Session} (hs : ∀ i, (s.queue i).inUse = true → P (s.queue i).toPublish)
    (c : Client) (now : ℤ) (sendOk : Bool) : R c (s.drain c now sendOk).2.1 := by
  have hfold : ∀ (l : List (Fin SESSION_QUEUE_MAX)) (r : Client × List Bytes),
      R r.1 (l.foldl (s.drainOne now sendOk) r).1 := by
    intro l
    induction l with
    | nil => exact fun r ↦ hR.refl r.1
    | cons i l ih =>
        intro r
        refine hR.trans ?_ (ih _)
        unfold Session.drainOne Session.drainEntry
        split_ifs with huse
        · dsimp only
          split
          · exact hR.refl r.1
          · rename_i buf hbuild
            exact hR.sendAndStore (hs i huse) hbuild r.1 now sendOk
        · exact hR.refl r.1
  exact hfold _ (c, [])

omit [DecidableEq κ] in
theorem retained {retains : RetainStore}
    (hret : ∀ r, retains = some r → ∀ i qos c, P (retainedPublish (r i) qos c).1) (c : Client)
    (filter : CStr) (qos : UInt8) (now : ℤ) (sendOk : Bool) :
    R c (topicDeliverRetained retains c filter qos now sendOk).1 := by
  have htake : ∀ (e : RetainEntry) (c : Client), R c (retainedPublish e qos c).2 := by
    intro e c
    unfold retainedPublish
    dsimp only
    generalize (if qos < e.qos then qos else e.qos) = q
    split_ifs
    · exact hR.takeId c _
    · exact hR.refl c
  have hcollect : ∀ (l : List RetainEntry), (∀ e ∈ l, ∀ c, P (retainedPublish e qos c).1) →
      ∀ r : Client × List (MqttPublish × Bytes), (∀ p ∈ r.2, P p.1 ∧
        packetBuildPublish p.1 (MQTT_MAX_PACKET_SIZE + 8) = some p.2) →
      R r.1 (l.foldl (collectRetained filter qos) r).1 ∧
        ∀ p ∈ (l.foldl (collectRetained filter qos) r).2, P p.1 ∧
          packetBuildPublish p.1 (MQTT_MAX_PACKET_SIZE + 8) = some p.2 := by
    intro l
    induction l with
    | nil => exact fun _ r hr ↦ ⟨hR.refl r.1, hr⟩
    | cons e l ih =>
        intro hl r hr
        have hrest := ih fun x hx ↦ hl x (List.mem_cons_of_mem e hx)
        rw [List.foldl_cons]
        unfold collectRetained
        split_ifs
        · exact hrest r hr
        · dsimp only
          split
          · rename_i buf hbuild
            have hnew := hrest ((retainedPublish e qos r.1).2,
              r.2 ++ [((retainedPublish e qos r.1).1, buf)]) (by
                intro p hp
                rcases List.mem_append.mp hp with hp | hp
                · exact hr p hp
                · obtain rfl := List.mem_singleton.mp hp
                  exact ⟨hl e List.mem_cons_self r.1, hbuild⟩)
            exact ⟨hR.trans (htake e r.1) hnew.1, hnew.2⟩
          · have hnew := hrest ((retainedPublish e qos r.1).2, r.2) hr
            exact ⟨hR.trans (htake e r.1) hnew.1, hnew.2⟩
  have hsend : ∀ (pkts : List (MqttPublish × Bytes)) (c : Client), (∀ p ∈ pkts, P p.1 ∧
      packetBuildPublish p.1 (MQTT_MAX_PACKET_SIZE + 8) = some p.2) →
      R c (pkts.foldl (fun c p ↦ c.sendAndStore p.1 p.2 now sendOk) c) := by
    intro pkts
    induction pkts with
    | nil => exact fun c _ ↦ hR.refl c
    | cons p pkts ih =>
        intro c hp
        obtain ⟨hpub, hbuild⟩ := hp p List.mem_cons_self
        exact hR.trans (hR.sendAndStore hpub hbuild c now sendOk)
          (ih _ fun q hq ↦ hp q (List.mem_cons_of_mem p hq))
  cases retains with
  | none => exact hR.refl c
  | some r =>
      obtain ⟨hclient, hpkts⟩ := hcollect ((List.finRange TOPIC_RETAIN_MAX).map r) (by
        intro e he
        obtain ⟨i, -, rfl⟩ := List.mem_map.mp he
        exact hret r rfl i qos) (c, []) (by simp)
      exact hR.trans hclient (hsend _ _ hpkts)

theorem update {clients : κ → Client} {k : κ} {x : Client} (h : R (clients k) x) (d : κ) :
    R (clients d) (Function.update clients k x d) := by
  by_cases hd : d = k
  · subst hd
    simpa using h
  · simpa [hd] using hR.refl (clients d)

theorem collect (t : TopicTable cfg κ) (pub : MqttPublish) (l : List (Slot cfg))
    (st : Collected κ) (d : κ) : R (st.clients d) ((l.foldl (collectQos t pub) st).clients d) := by
  induction l generalizing st with
  | nil => exact hR.refl (st.clients d)
  | cons i l ih =>
      refine hR.trans ?_ (ih _)
      simp only [collectQos, addQosDeliveryTarget]
      generalize (if pub.qos < (t.subs i).qos then pub.qos else (t.subs i).qos) = qos
      split_ifs
      · exact hR.refl _
      · exact hR.refl _
      · exact hR.update (hR.takeId _ _) d
      · exact hR.refl _

theorem fanOut {env : Env κ} {t : TopicTable cfg κ} {clients : κ → Client} {pub : MqttPublish}
    (hpub : ∀ target : DeliveryTarget κ, P (targetPublish pub target))
    {r : (κ → Client) × List (κ × Bytes)} (h : topicFanOut env t clients pub = some r) (d : κ) :
    R (clients d) (r.1 d) := by
  have hshared : ∀ (targets : List κ) (clients : κ → Client),
      R (clients d) (sendShared env clients targets d) := by
    intro targets
    unfold sendShared
    induction targets with
    | nil => exact fun clients ↦ hR.refl (clients d)
    | cons k l ih => exact fun clients ↦ hR.trans (hR.update (hR.send _ _) d) (ih _)
  have hdeliver : ∀ (l : List (DeliveryTarget κ)) (r : (κ → Client) × List (κ × Bytes)),
      R (r.1 d) ((l.foldl (deliverQos env pub) r).1 d) := by
    intro l
    induction l with
    | nil => exact fun r ↦ hR.refl (r.1 d)
    | cons target l ih =>
        intro r
        refine hR.trans ?_ (ih _)
        unfold deliverQos
        dsimp only
        split
        · exact hR.refl (r.1 d)
        · rename_i buf hbuild
          exact hR.update (hR.sendAndStore (hpub target) hbuild _ _ _) d
  unfold topicFanOut at h
  split at h
  · simp only [topicPublishQos0, Option.bind_eq_bind, Option.bind_eq_some_iff] at h
    obtain ⟨slots, -, h⟩ := h
    split at h
    · obtain rfl := Option.some.inj h
      exact hR.refl (clients d)
    · obtain rfl := Option.some.inj h
      exact hshared _ clients
  · simp only [topicPublishQos, Option.bind_eq_bind, Option.bind_eq_some_iff] at h
    obtain ⟨slots, -, h⟩ := h
    obtain rfl := Option.some.inj h
    exact hR.trans (hR.collect t pub slots ⟨[], [], clients⟩ d) (hdeliver _ (_, []))

/-- A publish changes every connection in the allowed ways only. -/
theorem publish {env : Env κ} {b : Broker cfg κ} {pub : MqttPublish} {propagate : Bool}
    (hpub : ∀ target : DeliveryTarget κ, P (targetPublish pub target)) {r : Published cfg κ}
    (h : topicPublishInternal env b pub propagate = some r) (d : κ) :
    R (b.clients d) (r.broker.clients d) := by
  unfold topicPublishInternal at h
  split at h
  · obtain rfl := Option.some.inj h
    exact hR.refl (b.clients d)
  · obtain ⟨⟨clients, sent⟩, hrun, rfl⟩ := Option.map_eq_some_iff.mp h
    exact hR.fanOut hpub hrun d

end SendRule

omit [DecidableEq κ] in
theorem sentTo_rule : SendRule (fun _ ↦ True) SentTo where
  refl := .refl
  trans := .trans
  send := clientSend_sentTo
  takeId := nextPacketId_sentTo
  store c pub buf now _ _ := inflightStore_sentTo c pub.packetId buf pub.qos now

omit [DecidableEq κ] in
theorem topicDeliverRetained_sentTo (retains : RetainStore) (c : Client) (filter : CStr)
    (qos : UInt8) (now : ℤ) (sendOk : Bool) :
    SentTo c (topicDeliverRetained retains c filter qos now sendOk).1 :=
  sentTo_rule.retained (fun _ _ _ _ _ ↦ trivial) c filter qos now sendOk

theorem topicFanOut_sentTo {env : Env κ} {t : TopicTable cfg κ} {clients : κ → Client}
    {pub : MqttPublish} {r : (κ → Client) × List (κ × Bytes)}
    (h : topicFanOut env t clients pub = some r) (c : κ) : SentTo (clients c) (r.1 c) :=
  sentTo_rule.fanOut (fun _ ↦ trivial) h c

/-- `topic_publish` leaves the table alone and touches clients only by sending. -/
theorem topicPublishInternal_frame {env : Env κ} {b : Broker cfg κ} {pub : MqttPublish}
    {propagate : Bool} {r : Published cfg κ}
    (h : topicPublishInternal env b pub propagate = some r) :
    r.broker.table = b.table ∧ ∀ c, SentTo (b.clients c) (r.broker.clients c) := by
  unfold topicPublishInternal at h
  split at h
  · obtain rfl := Option.some.inj h
    exact ⟨rfl, fun c ↦ .refl _⟩
  · obtain ⟨⟨clients, sent⟩, hrun, rfl⟩ := Option.map_eq_some_iff.mp h
    exact ⟨rfl, topicFanOut_sentTo hrun⟩

/-- A retained PUBLISH frees an entry, fills one, or changes nothing. -/
theorem retainUpdate_cases (r : Fin TOPIC_RETAIN_MAX → RetainEntry) (pub : MqttPublish) :
    retainUpdate r pub = r ∨
    (∃ i, retainUpdate r pub = Function.update r i { r i with inUse := false }) ∨
    pub.payload ≠ [] ∧ ∃ i, ((r i).inUse = false ∨ (r i).topic = pub.topic) ∧
      retainUpdate r pub = Function.update r i
        ⟨pub.topic.take (MQTT_TOPIC_MAX - 1), pub.payload, pub.qos, true⟩ := by
  unfold retainUpdate
  dsimp only
  split_ifs with hempty
  · cases List.find? _ _ with
    | none => exact Or.inl rfl
    | some i => exact Or.inr (Or.inl ⟨i, rfl⟩)
  · split
    · rename_i i hi
      refine Or.inr (Or.inr ⟨hempty, i, ?_, rfl⟩)
      rcases Option.or_eq_some_iff.mp hi with hfound | ⟨-, hfree⟩
      · have hp := List.find?_some hfound
        simp only [Bool.and_eq_true, decide_eq_true_eq] at hp
        exact Or.inr hp.2
      · exact Or.inl (by simpa using List.find?_some hfree)
    · exact Or.inl rfl

omit [DecidableEq κ] in
theorem retainPublish_eq_none {retains : RetainStore} {callocOk : Bool} {pub : MqttPublish} :
    retainPublish retains callocOk pub = none ↔
      ¬(pub.retain = 0 ∨ retains ≠ none ∨ callocOk = true) := by
  by_cases h0 : pub.retain = 0
  · simp [retainPublish, h0]
  · cases retains <;> cases callocOk <;> simp [retainPublish, retainStoreEnsure, h0]

/-- The return code tells whether the retained store was there when needed. -/
theorem topicPublishInternal_rc {env : Env κ} {b : Broker cfg κ} {pub : MqttPublish}
    {propagate : Bool} {r : Published cfg κ}
    (h : topicPublishInternal env b pub propagate = some r) :
    r.rc = 0 ↔ pub.retain = 0 ∨ b.retains ≠ none ∨ env.callocOk = true := by
  unfold topicPublishInternal at h
  cases hr : retainPublish b.retains env.callocOk pub with
  | none =>
      simp only [hr] at h
      obtain rfl := Option.some.inj h
      simpa using retainPublish_eq_none.mp hr
  | some retains =>
      simp only [hr] at h
      obtain ⟨⟨clients, sent⟩, -, rfl⟩ := Option.map_eq_some_iff.mp h
      refine ⟨fun _ ↦ ?_, fun _ ↦ rfl⟩
      by_contra hno
      rw [retainPublish_eq_none.mpr hno] at hr
      cases hr

end MqttBroker
