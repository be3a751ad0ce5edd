import MqttBroker.Client.Sessions
import MqttBroker.Http
import MqttBroker.Lib.JsonParts
import MqttBroker.Topic.Snapshots

/-!
# The status page

`handle_status` of `http.c`: the snapshots that it takes, and the JSON text that it puts
together in a buffer with `snprintf`.
-/

namespace MqttBroker

open JsonText (Value lbrace rbrace lbracket rbracket comma intText strText arrText objText
  memberText joined Plain Utf8 StandsFor)

variable {cfg : Config} {κ : Type}

/-! ## The snapshots -/

/-- `client_snapshot_t`; the string is what `strncpy` has copied. -/
structure ClientSnapshot where
  slot : UInt8
  clientId : CStr
  keepalive : UInt16
  lastSeenMs : ℤ

/-- `retain_snapshot_t` -/
structure RetainSnapshot where
  topic : CStr
  payloadLen : ℕ
  qos : UInt8

/-- The slots that `client_get_snapshots` copies. -/
def connectedSlots (clients : Fin cfg.maxClients → Client) (max : ℕ) : List (Fin cfg.maxClients) :=
  ((List.finRange cfg.maxClients).filter fun i ↦ (clients i).state = .connected).take max

/-- `client_get_snapshots` -/
def clientGetSnapshots (clients : Fin cfg.maxClients → Client) (max : ℕ) : List ClientSnapshot :=
  (connectedSlots clients max).map fun i ↦
    ⟨UInt8.ofNat i.val, (clients i).clientId.take (MQTT_CLIENT_ID_MAX - 1), (clients i).keepalive,
      (clients i).lastSeenMs⟩

/-- The entries that `topic_get_retain_snapshots` copies. -/
def retainedEntries (retains : RetainStore) (max : ℕ) : List RetainEntry :=
  match retains with
  | none => []
  | some r => (((List.finRange TOPIC_RETAIN_MAX).map r).filter RetainEntry.inUse).take max

/-- `topic_get_retain_snapshots` -/
def topicGetRetainSnapshots (retains : RetainStore) (max : ℕ) : List RetainSnapshot :=
  (retainedEntries retains max).map fun e ↦
    ⟨e.topic.take (MQTT_TOPIC_MAX - 1), e.payload.length, e.qos⟩

/-- The bytes of the arrays `cs` and `rs` that no copy sets: the last of each string. -/
structure UnsetBytes where
  id : ℕ → UInt8
  topic : ℕ → UInt8

/-- What the memory holds behind these bytes, up to the next 0. -/
structure StackRest where
  id : ℕ → CStr
  topic : ℕ → CStr

/-- What `%s` prints of an array of `n + 1` bytes, after `strncpy` of `n` bytes into it. -/
def printUnset (n : ℕ) (copied : CStr) (unset : UInt8) (behind : CStr) : CStr :=
  if copied.length < n ∨ unset = 0 then copied else copied ++ unset :: behind

/-! ## The buffer -/

def STATUS_BUF : ℕ := 8192

/-- `buf` as far as it is written, and `pos`. -/
structure StatusBuf where
  buf : Bytes
  pos : ℕ
  /-- something was written outside of `buf` -/
  outside : Bool

/-- `pos += snprintf(buf + pos, (int)sizeof(buf) - pos, …)`.  A negative size is a huge `size_t`,
for which `snprintf` may return -1. -/
def StatusBuf.append (refuses : Bool) (b : StatusBuf) (text : CStr) : StatusBuf :=
  if b.pos < STATUS_BUF then
    { b with
      buf := b.buf.take b.pos ++ text.take (STATUS_BUF - b.pos - 1) ++ [0]
      pos := b.pos + text.length }
  else if b.pos = STATUS_BUF then { b with pos := b.pos + text.length }
  else if refuses then { b with pos := b.pos - 1 }
  else { b with pos := b.pos + text.length, outside := true }

/-! ## The text -/

namespace Status

/-- `"uptime_ms"` -/
def uptimeMs : CStr := [0x75, 0x70, 0x74, 0x69, 0x6D, 0x65, 0x5F, 0x6D, 0x73]

/-- `"clients"` -/
def clients : CStr := [0x63, 0x6C, 0x69, 0x65, 0x6E, 0x74, 0x73]

/-- `"subscriptions"` -/
def subscriptions : CStr :=
  [0x73, 0x75, 0x62, 0x73, 0x63, 0x72, 0x69, 0x70, 0x74, 0x69, 0x6F, 0x6E, 0x73]

/-- `"retained"` -/
def retained : CStr := [0x72, 0x65, 0x74, 0x61, 0x69, 0x6E, 0x65, 0x64]

/-- `"slot"` -/
def slot : CStr := [0x73, 0x6C, 0x6F, 0x74]

/-- `"client_id"` -/
def clientId : CStr := [0x63, 0x6C, 0x69, 0x65, 0x6E, 0x74, 0x5F, 0x69, 0x64]

/-- `"keepalive"` -/
def keepalive : CStr := [0x6B, 0x65, 0x65, 0x70, 0x61, 0x6C, 0x69, 0x76, 0x65]

/-- `"idle_ms"` -/
def idleMs : CStr := [0x69, 0x64, 0x6C, 0x65, 0x5F, 0x6D, 0x73]

/-- `"filter"` -/
def filter : CStr := [0x66, 0x69, 0x6C, 0x74, 0x65, 0x72]

/-- `"payload_len"` -/
def payloadLen : CStr := [0x70, 0x61, 0x79, 0x6C, 0x6F, 0x61, 0x64, 0x5F, 0x6C, 0x65, 0x6E]

def keys : List CStr :=
  [uptimeMs, clients, subscriptions, retained, slot, clientId, keepalive, idleMs, filter,
    payloadLen, Json.topic, Json.qos]

theorem isKey_of_mem : ∀ key ∈ keys, JsonText.IsKey key := by decide +kernel

def clientText (now : ℤ) (id : CStr) (c : ClientSnapshot) : CStr :=
  objText [memberText slot (intText c.slot.toNat), memberText clientId (strText id),
    memberText keepalive (intText c.keepalive.toNat),
    memberText idleMs (intText (now - c.lastSeenMs))]

def subText (s : SubSnapshot) : CStr :=
  objText [memberText filter (strText s.filter), memberText clientId (strText s.clientId),
    memberText Json.qos (intText s.qos.toNat)]

def retainText (topic : CStr) (r : RetainSnapshot) : CStr :=
  objText [memberText Json.topic (strText topic), memberText payloadLen (intText r.payloadLen),
    memberText Json.qos (intText r.qos.toNat)]

/-- The appends of a loop, with `if (i) APPEND(",")`. -/
def commaSeparated : List CStr → List CStr
  | [] => []
  | [x] => [x]
  | x :: xs => x :: [comma] :: commaSeparated xs

end Status

/-- What `handle_status` reads. -/
structure StatusView (cfg : Config) (κ : Type) where
  clients : Fin cfg.maxClients → Client
  table : TopicTable cfg κ
  ids : κ → CStr
  retains : RetainStore
  now : ℤ

namespace StatusView

open Status

/-- The texts that are appended one after the other. -/
def appends (v : StatusView cfg κ) (unset : UnsetBytes) (behind : StackRest) : List CStr :=
  let cs := clientGetSnapshots v.clients cfg.maxClients
  let ss := v.table.topicGetSubSnapshots v.ids cfg.topicMaxSubs
  let rs := topicGetRetainSnapshots v.retains cfg.topicMaxSubs
  [lbrace :: memberText uptimeMs (intText v.now), comma :: memberText Status.clients [lbracket]] ++
    commaSeparated (cs.zipIdx.map fun (c, i) ↦
      clientText v.now
        (printUnset (MQTT_CLIENT_ID_MAX - 1) c.clientId (unset.id i) (behind.id i)) c) ++
    [[rbracket], comma :: memberText subscriptions [lbracket]] ++
    commaSeparated (ss.map subText) ++
    [[rbracket], comma :: memberText retained [lbracket]] ++
    commaSeparated (rs.zipIdx.map fun (r, i) ↦
      retainText (printUnset (MQTT_TOPIC_MAX - 1) r.topic (unset.topic i) (behind.topic i)) r) ++
    [[rbracket, rbrace]]

/-- `handle_status`: the buffer when `http_send` is called. -/
def handleStatus (refuses : Bool) (v : StatusView cfg κ) (unset : UnsetBytes) (behind : StackRest) :
    StatusBuf :=
  (v.appends unset behind).foldl (StatusBuf.append refuses) ⟨[], 0, false⟩

/-! ## What the page should say -/

def connected (v : StatusView cfg κ) : List (Fin cfg.maxClients) :=
  connectedSlots v.clients cfg.maxClients

def used (v : StatusView cfg κ) : List (Slot cfg) :=
  (Paging.page v.table.used cfg.topicMaxSubs 0).1

def retained (v : StatusView cfg κ) : List RetainEntry :=
  retainedEntries v.retains cfg.topicMaxSubs

def clientValue (v : StatusView cfg κ) (i : Fin cfg.maxClients) : Value :=
  .obj [(slot, .num ((UInt8.ofNat i.val).toNat : ℤ)), (clientId, .str (v.clients i).clientId),
    (keepalive, .num ((v.clients i).keepalive.toNat : ℤ)),
    (idleMs, .num (v.now - (v.clients i).lastSeenMs : ℤ))]

def subValue (v : StatusView cfg κ) (i : Slot cfg) : Value :=
  .obj [(Status.filter, .str (v.table.subs i).filter),
    (clientId, .str (v.ids (v.table.subs i).client)),
    (Json.qos, .num ((v.table.subs i).qos.toNat : ℤ))]

def retainValue (e : RetainEntry) : Value :=
  .obj [(Json.topic, .str e.topic), (payloadLen, .num (e.payload.length : ℤ)),
    (Json.qos, .num (e.qos.toNat : ℤ))]

/-- The object with the stored ids, filters and topics. -/
def value (v : StatusView cfg κ) : Value :=
  .obj [(uptimeMs, .num v.now), (Status.clients, .arr (v.connected.map v.clientValue)),
    (subscriptions, .arr (v.used.map v.subValue)),
    (Status.retained, .arr (v.retained.map retainValue))]

/-- Nothing is written outside of the buffer, the length that is passed is written, and the body
is the page. -/
structure Right (v : StatusView cfg κ) (b : StatusBuf) : Prop where
  inside : b.outside = false
  written : b.pos ≤ b.buf.length
  body : StandsFor (b.buf.take b.pos) v.value

/-! ## The whole text -/

def clientRow (v : StatusView cfg κ) (i : Fin cfg.maxClients) : CStr :=
  objText [memberText slot (intText (UInt8.ofNat i.val).toNat),
    memberText clientId (strText (v.clients i).clientId),
    memberText keepalive (intText (v.clients i).keepalive.toNat),
    memberText idleMs (intText (v.now - (v.clients i).lastSeenMs))]

def subRow (v : StatusView cfg κ) (i : Slot cfg) : CStr :=
  objText [memberText Status.filter (strText (v.table.subs i).filter),
    memberText clientId (strText (v.ids (v.table.subs i).client)),
    memberText Json.qos (intText (v.table.subs i).qos.toNat)]

def retainRow (e : RetainEntry) : CStr :=
  objText [memberText Json.topic (strText e.topic),
    memberText payloadLen (intText e.payload.length), memberText Json.qos (intText e.qos.toNat)]

/-- The text of the page, when every string is printed as it is stored. -/
def page (v : StatusView cfg κ) : CStr :=
  objText [memberText uptimeMs (intText v.now),
    memberText Status.clients (arrText (v.connected.map v.clientRow)),
    memberText subscriptions (arrText (v.used.map v.subRow)),
    memberText Status.retained (arrText (v.retained.map retainRow))]

theorem flatten_commaSeparated (xs : List CStr) : (commaSeparated xs).flatten = joined xs := by
  match xs with
  | [] => rfl
  | [x] => simp [commaSeparated, joined]
  | x :: y :: xs =>
      have hrest := flatten_commaSeparated (y :: xs)
      have hcons : commaSeparated (x :: y :: xs) = x :: [comma] :: commaSeparated (y :: xs) := rfl
      rw [hcons, List.flatten_cons, List.flatten_cons, hrest]
      rfl

/-- The strings of the subscriptions fit into their arrays. -/
structure Fits (v : StatusView cfg κ) : Prop where
  filter : ∀ i, (v.table.subs i).inUse = true →
    (v.table.subs i).filter.length < MQTT_TOPIC_MAX
  id : ∀ i, (v.table.subs i).inUse = true →
    (v.ids (v.table.subs i).client).length < MQTT_CLIENT_ID_MAX

theorem map_zipIdx {α β : Type} {l : List α} {f : α × ℕ → β} {g : α → β}
    (h : ∀ a ∈ l, ∀ n, f (a, n) = g a) : l.zipIdx.map f = l.map g := by
  have hfst : l.zipIdx.map f = l.zipIdx.map (g ∘ Prod.fst) := by
    refine List.map_congr_left fun x hx ↦ ?_
    exact h x.1 (List.fst_mem_of_mem_zipIdx hx) x.2
  rw [hfst, ← List.map_map, List.zipIdx_map_fst]

/-- The unset bytes leave the text as it is. -/
structure Harmless (v : StatusView cfg κ) (unset : UnsetBytes) : Prop where
  id : ∀ i ∈ v.connected, (v.clients i).clientId.length < MQTT_CLIENT_ID_MAX ∧
    ((v.clients i).clientId.length < MQTT_CLIENT_ID_MAX - 1 ∨ ∀ n, unset.id n = 0)
  topic : ∀ e ∈ v.retained, e.topic.length < MQTT_TOPIC_MAX ∧
    (e.topic.length < MQTT_TOPIC_MAX - 1 ∨ ∀ n, unset.topic n = 0)

theorem printUnset_eq {n : ℕ} {s : CStr} {unset : UInt8} (h : s.length < n ∨ unset = 0)
    (behind : CStr) : printUnset n (s.take n) unset behind = s.take n := by
  refine if_pos (h.imp_left fun hlen ↦ ?_)
  exact lt_of_le_of_lt (List.length_take_le' n s) hlen

theorem clientTexts_eq {v : StatusView cfg κ} {unset : UnsetBytes} (h : v.Harmless unset)
    (behind : StackRest) :
    ((clientGetSnapshots v.clients cfg.maxClients).zipIdx.map fun (c, i) ↦
      clientText v.now
        (printUnset (MQTT_CLIENT_ID_MAX - 1) c.clientId (unset.id i) (behind.id i)) c) =
      v.connected.map v.clientRow := by
  rw [map_zipIdx (g := fun c ↦ clientText v.now c.clientId c)]
  · rw [clientGetSnapshots, List.map_map]
    refine List.map_congr_left fun i hi ↦ ?_
    have htake : (v.clients i).clientId.take (MQTT_CLIENT_ID_MAX - 1) = (v.clients i).clientId :=
      List.take_of_length_le (Nat.le_sub_one_of_lt (h.id i hi).1)
    simp only [Function.comp_apply, htake]
    rfl
  · intro c hc n
    obtain ⟨i, hi, rfl⟩ := List.mem_map.mp hc
    dsimp only
    rw [printUnset_eq ((h.id i hi).2.imp_right fun hzero ↦ hzero n)]

theorem retainTexts_eq {v : StatusView cfg κ} {unset : UnsetBytes} (h : v.Harmless unset)
    (behind : StackRest) :
    ((topicGetRetainSnapshots v.retains cfg.topicMaxSubs).zipIdx.map fun (r, i) ↦
      retainText (printUnset (MQTT_TOPIC_MAX - 1) r.topic (unset.topic i) (behind.topic i)) r) =
      v.retained.map retainRow := by
  rw [map_zipIdx (g := fun r ↦ retainText r.topic r)]
  · rw [topicGetRetainSnapshots, List.map_map]
    refine List.map_congr_left fun e he ↦ ?_
    have htake : e.topic.take (MQTT_TOPIC_MAX - 1) = e.topic :=
      List.take_of_length_le (Nat.le_sub_one_of_lt (h.topic e he).1)
    simp only [Function.comp_apply, htake]
    rfl
  · intro r hr n
    obtain ⟨e, he, rfl⟩ := List.mem_map.mp hr
    dsimp only
    rw [printUnset_eq ((h.topic e he).2.imp_right fun hzero ↦ hzero n)]

theorem inUse_of_mem_used {v : StatusView cfg κ} {i : Slot cfg} (h : i ∈ v.used) :
    (v.table.subs i).inUse = true :=
  (((v.table.isPage_used cfg.topicMaxSubs (Nat.zero_le _)).mem i).mp h).1

theorem subTexts_eq {v : StatusView cfg κ} (hfits : v.Fits) :
    (v.table.topicGetSubSnapshots v.ids cfg.topicMaxSubs).map subText = v.used.map v.subRow := by
  rw [TopicTable.topicGetSubSnapshots, TopicTable.topicGetSubSnapshotsFrom, List.map_map]
  refine List.map_congr_left fun i hi ↦ ?_
  have huse := inUse_of_mem_used hi
  have hfilter := List.take_of_length_le (Nat.le_sub_one_of_lt (hfits.filter i huse))
  have hid := List.take_of_length_le (Nat.le_sub_one_of_lt (hfits.id i huse))
  simp only [Function.comp_apply, TopicTable.snapshot, subText, hfilter, hid]
  rfl

/-- Strings that end within their arrays hide the unset bytes. -/
theorem harmless_of_short {v : StatusView cfg κ}
    (hid : ∀ i ∈ v.connected, (v.clients i).clientId.length < MQTT_CLIENT_ID_MAX - 1)
    (htopic : ∀ e ∈ v.retained, e.topic.length < MQTT_TOPIC_MAX - 1) (unset : UnsetBytes) :
    v.Harmless unset where
  id i hi := ⟨Nat.lt_of_lt_pred (hid i hi), Or.inl (hid i hi)⟩
  topic e he := ⟨Nat.lt_of_lt_pred (htopic e he), Or.inl (htopic e he)⟩

theorem flatten_appends {v : StatusView cfg κ} (hfits : v.Fits) {unset : UnsetBytes}
    (h : v.Harmless unset) (behind : StackRest) : (v.appends unset behind).flatten = v.page := by
  unfold appends
  dsimp only
  rw [clientTexts_eq h, subTexts_eq hfits, retainTexts_eq h]
  simp [flatten_commaSeparated, page, objText, arrText, memberText, joined]

/-! ## When the text is the page -/

/-- The strings of the page. -/
def strings (v : StatusView cfg κ) : List CStr :=
  v.connected.map (fun i ↦ (v.clients i).clientId) ++
    (v.used.flatMap (fun i ↦ [(v.table.subs i).filter, v.ids (v.table.subs i).client]) ++
      v.retained.map RetainEntry.topic)

theorem forall_strings {v : StatusView cfg κ} {P : CStr → Prop} :
    (∀ s ∈ v.strings, P s) ↔ (∀ i ∈ v.connected, P (v.clients i).clientId) ∧
      (∀ i ∈ v.used, P (v.table.subs i).filter ∧ P (v.ids (v.table.subs i).client)) ∧
      ∀ e ∈ v.retained, P e.topic := by
  simp only [strings, List.forall_mem_append, List.forall_mem_map, List.forall_mem_flatMap,
    List.mem_cons, List.not_mem_nil, or_false, forall_eq_or_imp, forall_eq]

section Spelling

open JsonText (Spells Members Utf8Part spells_arrText utf8Part_memberInt utf8Part_memberStr
  utf8Part_joined)

variable (v : StatusView cfg κ) (k : ℕ)

theorem spells_clientRow (i : Fin cfg.maxClients) :
    Spells (JsonText.value (k + 2)) (fun _ ↦ True) (v.clientRow i) (v.clientValue i)
      (∀ c ∈ (v.clients i).clientId, Plain c) := by
  have hidle : Members (k + 1) 1 _ _ _ :=
    .lastInt (isKey_of_mem idleMs (by decide)) (v.now - (v.clients i).lastSeenMs)
  have hkeepalive : Members (k + 1) 2 _ _ _ :=
    .consInt (isKey_of_mem keepalive (by decide)) (v.clients i).keepalive.toNat hidle
  have hid : Members (k + 1) 3 _ _ _ :=
    .consStr (isKey_of_mem clientId (by decide)) (v.clients i).clientId hkeepalive
  have hslot : Members (k + 1) 4 _ _ _ :=
    .consInt (isKey_of_mem slot (by decide)) (UInt8.ofNat i.val).toNat hid
  exact hslot.obj.congr (by simp)

theorem spells_subRow (i : Slot cfg) :
    Spells (JsonText.value (k + 2)) (fun _ ↦ True) (v.subRow i) (v.subValue i)
      ((∀ c ∈ (v.table.subs i).filter, Plain c) ∧
        ∀ c ∈ v.ids (v.table.subs i).client, Plain c) := by
  have hqos : Members (k + 1) 1 _ _ _ :=
    .lastInt (isKey_of_mem Json.qos (by decide)) (v.table.subs i).qos.toNat
  have hid : Members (k + 1) 2 _ _ _ :=
    .consStr (isKey_of_mem clientId (by decide)) (v.ids (v.table.subs i).client) hqos
  have hfilter : Members (k + 1) 3 _ _ _ :=
    .consStr (isKey_of_mem Status.filter (by decide)) (v.table.subs i).filter hid
  exact hfilter.obj.congr (by simp)

theorem spells_retainRow (e : RetainEntry) :
    Spells (JsonText.value (k + 2)) (fun _ ↦ True) (retainRow e) (retainValue e)
      (∀ c ∈ e.topic, Plain c) := by
  have hqos : Members (k + 1) 1 _ _ _ :=
    .lastInt (isKey_of_mem Json.qos (by decide)) e.qos.toNat
  have hlen : Members (k + 1) 2 _ _ _ :=
    .consInt (isKey_of_mem payloadLen (by decide)) e.payload.length hqos
  have htopic : Members (k + 1) 3 _ _ _ :=
    .consStr (isKey_of_mem Json.topic (by decide)) e.topic hlen
  exact htopic.obj.congr (by simp)

theorem spells_page :
    Spells (JsonText.value (k + 4)) (fun _ ↦ True) v.page v.value
      (∀ s ∈ v.strings, ∀ c ∈ s, Plain c) := by
  have hretained : Members (k + 3) 1 _ _ _ :=
    .last (isKey_of_mem Status.retained (by decide)) ⟨lbracket, _, rfl, rfl⟩
      ((spells_arrText (fun _ ↦ ⟨_, rfl⟩) (spells_retainRow k) v.retained).mono fun _ _ ↦ trivial)
  have hsubs : Members (k + 3) 2 _ _ _ :=
    .cons (isKey_of_mem subscriptions (by decide)) ⟨lbracket, _, rfl, rfl⟩
      ((spells_arrText (fun _ ↦ ⟨_, rfl⟩) (spells_subRow v k) v.used).mono fun _ _ ↦ trivial)
      hretained
  have hclients : Members (k + 3) 3 _ _ _ :=
    .cons (isKey_of_mem Status.clients (by decide)) ⟨lbracket, _, rfl, rfl⟩
      ((spells_arrText (fun _ ↦ ⟨_, rfl⟩) (spells_clientRow v k) v.connected).mono
        fun _ _ ↦ trivial) hsubs
  have huptime : Members (k + 3) 4 _ _ _ :=
    .consInt (isKey_of_mem uptimeMs (by decide)) v.now hclients
  refine huptime.obj.congr ?_
  rw [forall_strings, true_and]

theorem utf8_clientRow (i : Fin cfg.maxClients) :
    Utf8Part (v.clientRow i) (Utf8 (v.clients i).clientId) := by
  have hslot := utf8Part_memberInt (isKey_of_mem slot (by decide)) (UInt8.ofNat i.val).toNat
  have hid := utf8Part_memberStr (isKey_of_mem clientId (by decide)) (v.clients i).clientId
  have hkeepalive := utf8Part_memberInt (isKey_of_mem keepalive (by decide))
    (v.clients i).keepalive.toNat
  have hidle := utf8Part_memberInt (isKey_of_mem idleMs (by decide))
    (v.now - (v.clients i).lastSeenMs)
  have hrow := hslot.separated (hid.separated (hkeepalive.separated hidle))
  exact hrow.braced.congr (by simp)

theorem utf8_subRow (i : Slot cfg) : Utf8Part (v.subRow i)
    (Utf8 (v.table.subs i).filter ∧ Utf8 (v.ids (v.table.subs i).client)) := by
  have hfilter := utf8Part_memberStr (isKey_of_mem Status.filter (by decide))
    (v.table.subs i).filter
  have hid := utf8Part_memberStr (isKey_of_mem clientId (by decide))
    (v.ids (v.table.subs i).client)
  have hqos := utf8Part_memberInt (isKey_of_mem Json.qos (by decide)) (v.table.subs i).qos.toNat
  have hrow := hfilter.separated (hid.separated hqos)
  exact hrow.braced.congr (by simp)

theorem utf8_retainRow (e : RetainEntry) : Utf8Part (retainRow e) (Utf8 e.topic) := by
  have htopic := utf8Part_memberStr (isKey_of_mem Json.topic (by decide)) e.topic
  have hlen := utf8Part_memberInt (isKey_of_mem payloadLen (by decide)) e.payload.length
  have hqos := utf8Part_memberInt (isKey_of_mem Json.qos (by decide)) e.qos.toNat
  have hrow := htopic.separated (hlen.separated hqos)
  exact hrow.braced.congr (by simp)

theorem utf8_list (key : CStr) (hkey : key ∈ keys) {α : Type} {text : α → CStr} {ok : α → Prop}
    (h : ∀ a, Utf8Part (text a) (ok a)) (l : List α) :
    Utf8Part (memberText key (arrText (l.map text))) (∀ a ∈ l, ok a) :=
  .member (isKey_of_mem key hkey) ((utf8Part_joined h l).enclosed (by decide) (by decide))

theorem utf8_page : Utf8Part v.page (∀ s ∈ v.strings, Utf8 s) := by
  have huptime := utf8Part_memberInt (isKey_of_mem uptimeMs (by decide)) v.now
  have hclients := utf8_list Status.clients (by decide) v.utf8_clientRow v.connected
  have hsubs := utf8_list subscriptions (by decide) v.utf8_subRow v.used
  have hretained := utf8_list Status.retained (by decide) utf8_retainRow v.retained
  refine (huptime.separated (hclients.separated (hsubs.separated hretained))).braced.congr ?_
  rw [forall_strings, true_and]

end Spelling

/-- The text with the stored strings stands for the page if and only if they need no escape. -/
theorem standsFor_page (v : StatusView cfg κ) :
    StandsFor v.page v.value ↔ ∀ s ∈ v.strings, Utf8 s ∧ ∀ c ∈ s, Plain c := by
  have hlen : 4 ≤ v.page.length := by
    have huptime : 4 ≤ uptimeMs.length := by decide
    simp only [page, objText, joined, memberText, List.length_cons, List.length_append]
    omega
  have hdocument : JsonText.document v.page = some v.value ↔
      ∀ s ∈ v.strings, ∀ c ∈ s, Plain c := by
    refine JsonText.document_iff ⟨lbrace, _, rfl, rfl⟩ hlen fun k hk ↦ ?_
    obtain ⟨k, rfl⟩ := Nat.exists_eq_add_of_le' hk
    exact v.spells_page k
  rw [StandsFor, v.utf8_page.utf8_iff, hdocument, ← forall₂_and]

end StatusView

/-! ## What is in the buffer -/

namespace StatusBuf

/-- The buffer holds the text so far, and it has room. -/
structure Holds (x : CStr) (b : StatusBuf) : Prop where
  inside : b.outside = false
  pos : b.pos = x.length
  room : x.length < STATUS_BUF
  written : b.pos ≤ b.buf.length
  text : b.buf.take b.pos = x

/-- The text is cut at the end of the buffer, where a 0 stands. -/
structure Cut (b : StatusBuf) : Prop where
  pos : STATUS_BUF ≤ b.pos
  full : b.buf.length = STATUS_BUF
  nul : 0 ∈ b.buf

variable {x : CStr} {b : StatusBuf} (refuses : Bool)

theorem Holds.append (h : b.Holds x) {t : CStr} (hroom : x.length + t.length < STATUS_BUF) :
    (b.append refuses t).Holds (x ++ t) := by
  have hpos : b.pos < STATUS_BUF := h.pos ▸ h.room
  have htake : t.take (STATUS_BUF - b.pos - 1) = t :=
    List.take_of_length_le (by rw [h.pos]; omega)
  have hnew : b.append refuses t = ⟨x ++ t ++ [0], b.pos + t.length, b.outside⟩ := by
    rw [StatusBuf.append, if_pos hpos, h.text, htake]
  have hlen : b.pos + t.length = (x ++ t).length := by rw [h.pos, List.length_append]
  rw [hnew]
  refine ⟨h.inside, hlen, by rw [List.length_append]; exact hroom, ?_, ?_⟩
  · rw [hlen]
    exact (List.prefix_append (x ++ t) [0]).length_le
  · dsimp only
    rw [hlen, List.take_left]

theorem Holds.cut (h : b.Holds x) {t : CStr} (hfull : STATUS_BUF ≤ x.length + t.length) :
    (b.append refuses t).Cut := by
  have hpos : b.pos < STATUS_BUF := h.pos ▸ h.room
  have hnew : b.append refuses t =
      ⟨x ++ t.take (STATUS_BUF - b.pos - 1) ++ [0], b.pos + t.length, b.outside⟩ := by
    rw [StatusBuf.append, if_pos hpos, h.text]
  have hroom := h.room
  rw [hnew]
  refine ⟨by rw [h.pos]; exact hfull, ?_, by simp⟩
  simp only [List.length_append, List.length_take, List.length_singleton, h.pos]
  omega

theorem Cut.append (h : b.Cut) (t : CStr) : (b.append refuses t).Cut := by
  have hpos := h.pos
  rw [StatusBuf.append, if_neg (Nat.not_lt.mpr hpos)]
  split_ifs with heq
  · exact ⟨by dsimp only; omega, h.full, h.nul⟩
  · exact ⟨by dsimp only; omega, h.full, h.nul⟩
  · exact ⟨by dsimp only; omega, h.full, h.nul⟩

theorem Cut.foldl (h : b.Cut) (ts : List CStr) : (ts.foldl (StatusBuf.append refuses) b).Cut := by
  induction ts generalizing b with
  | nil => exact h
  | cons t ts ih => exact ih (h.append refuses t)

/-- After all appends the buffer holds the whole text, or it is cut. -/
theorem Holds.foldl (h : b.Holds x) (ts : List CStr) :
    if (x ++ ts.flatten).length < STATUS_BUF then
      (ts.foldl (StatusBuf.append refuses) b).Holds (x ++ ts.flatten)
    else (ts.foldl (StatusBuf.append refuses) b).Cut := by
  induction ts generalizing b x with
  | nil =>
      rw [List.flatten_nil, List.append_nil, if_pos h.room]
      exact h
  | cons t ts ih =>
      rw [List.flatten_cons, ← List.append_assoc, List.foldl_cons]
      by_cases hroom : x.length + t.length < STATUS_BUF
      · exact ih (h.append refuses hroom)
      · have hcut := (h.cut refuses (Nat.not_lt.mp hroom)).foldl refuses ts
        rw [if_neg]
        · exact hcut
        · simp only [List.length_append]
          omega

end StatusBuf

namespace StatusView

open Status

variable {v : StatusView cfg κ}

theorem not_right_of_cut {b : StatusBuf} (h : b.Cut) : ¬ v.Right b := by
  intro hright
  have hpos : b.buf.length ≤ b.pos := h.full.trans_le h.pos
  have hbody := hright.body.2
  rw [List.take_of_length_le hpos] at hbody
  exact absurd (JsonText.document_allowed hbody 0 h.nul) (by decide)

/-- The page is right if and only if the text fits into the buffer and stands for it. -/
theorem right_iff (refuses : Bool) (unset : UnsetBytes) (behind : StackRest) :
    v.Right (v.handleStatus refuses unset behind) ↔
      (v.appends unset behind).flatten.length < STATUS_BUF ∧
        StandsFor (v.appends unset behind).flatten v.value := by
  have hstart : (⟨[], 0, false⟩ : StatusBuf).Holds [] := ⟨rfl, rfl, by decide, le_refl _, rfl⟩
  have hall := hstart.foldl refuses (v.appends unset behind)
  rw [List.nil_append] at hall
  split_ifs at hall with hroom
  · rw [and_iff_right hroom]
    constructor
    · intro hright
      have hbody := hright.body
      rwa [handleStatus, hall.text] at hbody
    · intro hbody
      refine ⟨hall.inside, hall.written, ?_⟩
      rwa [handleStatus, hall.text]
  · exact iff_of_false (not_right_of_cut hall) fun h ↦ hroom h.1

/-! ## The condition -/

/-- The length of a list of rows with commas between them. -/
def listLength (rows : List ℕ) : ℕ := rows.sum + (rows.length - 1)

def width (z : ℤ) : ℕ := (intText z).length

/-- The length of the page. -/
def length (v : StatusView cfg κ) : ℕ :=
  60 + width v.now +
    listLength (v.connected.map fun i ↦ 48 + width (UInt8.ofNat i.val).toNat +
      (v.clients i).clientId.length + width (v.clients i).keepalive.toNat +
        width (v.now - (v.clients i).lastSeenMs)) +
    listLength (v.used.map fun i ↦ 35 + (v.table.subs i).filter.length +
      (v.ids (v.table.subs i).client).length + width (v.table.subs i).qos.toNat) +
    listLength (v.retained.map fun e ↦ 34 + e.topic.length + width e.payload.length +
      width e.qos.toNat)

theorem length_objText (xs : List CStr) : (objText xs).length = (joined xs).length + 2 := by
  simp [objText]

theorem length_memberText (key x : CStr) :
    (memberText key x).length = key.length + 3 + x.length := by
  simp only [memberText, List.length_cons, List.length_append]
  omega

theorem length_rows {α : Type} {text : α → CStr} {size : α → ℕ}
    (h : ∀ a, (text a).length = size a) (l : List α) :
    (arrText (l.map text)).length = listLength (l.map size) + 2 := by
  have hsizes : (l.map text).map List.length = l.map size := by
    rw [List.map_map]
    exact List.map_congr_left fun a _ ↦ h a
  simp only [arrText, List.length_cons, List.length_append, JsonText.length_joined_eq, hsizes,
    List.length_map, listLength, List.length_nil]

theorem length_clientRow (v : StatusView cfg κ) (i : Fin cfg.maxClients) :
    (v.clientRow i).length = 48 + width (UInt8.ofNat i.val).toNat +
      (v.clients i).clientId.length + width (v.clients i).keepalive.toNat +
        width (v.now - (v.clients i).lastSeenMs) := by
  have hkeys : slot.length = 4 ∧ clientId.length = 9 ∧ keepalive.length = 9 ∧
      idleMs.length = 7 := by decide
  simp only [clientRow, length_objText, joined, length_memberText, strText, width,
    List.length_append, List.length_cons, List.length_nil]
  omega

theorem length_subRow (v : StatusView cfg κ) (i : Slot cfg) :
    (v.subRow i).length = 35 + (v.table.subs i).filter.length +
      (v.ids (v.table.subs i).client).length + width (v.table.subs i).qos.toNat := by
  have hkeys : Status.filter.length = 6 ∧ clientId.length = 9 ∧ Json.qos.length = 3 := by decide
  simp only [subRow, length_objText, joined, length_memberText, strText, width,
    List.length_append, List.length_cons, List.length_nil]
  omega

theorem length_retainRow (e : RetainEntry) :
    (retainRow e).length = 34 + e.topic.length + width e.payload.length + width e.qos.toNat := by
  have hkeys : Json.topic.length = 5 ∧ payloadLen.length = 11 ∧ Json.qos.length = 3 := by decide
  simp only [retainRow, length_objText, joined, length_memberText, strText, width,
    List.length_append, List.length_cons, List.length_nil]
  omega

theorem length_page (v : StatusView cfg κ) : v.page.length = v.length := by
  have hkeys : uptimeMs.length = 9 ∧ Status.clients.length = 7 ∧ subscriptions.length = 13 ∧
      Status.retained.length = 8 := by decide
  simp only [page, length_objText, joined, length_memberText, List.length_append,
    List.length_cons, length_rows v.length_clientRow, length_rows v.length_subRow,
    length_rows length_retainRow, length, width]
  omega

/-- What the page can show: it fits into the buffer, no unset byte is read, and no string needs an
escape. -/
structure Printable (v : StatusView cfg κ) : Prop where
  length : v.length < STATUS_BUF
  id : ∀ i ∈ v.connected, (v.clients i).clientId.length < MQTT_CLIENT_ID_MAX - 1
  topic : ∀ e ∈ v.retained, e.topic.length < MQTT_TOPIC_MAX - 1
  strings : ∀ s ∈ v.strings, Utf8 s ∧ ∀ c ∈ s, Plain c

theorem Printable.right (h : v.Printable) (hfits : v.Fits) (refuses : Bool) (unset : UnsetBytes)
    (behind : StackRest) : v.Right (v.handleStatus refuses unset behind) := by
  have hharmless := harmless_of_short h.id h.topic unset
  rw [right_iff, flatten_appends hfits hharmless, length_page, standsFor_page]
  exact ⟨h.length, h.strings⟩

/-- Unset bytes that no JSON text can have. -/
def controlBytes : UnsetBytes := ⟨fun _ ↦ 1, fun _ ↦ 1⟩

theorem control_mem_printUnset {n : ℕ} {s : CStr} (h : n ≤ s.length) (behind : CStr) :
    1 ∈ printUnset n (s.take n) 1 behind := by
  have hlen : ¬ ((s.take n).length < n ∨ (1 : UInt8) = 0) := by
    rw [List.length_take_of_le h]
    simp
  rw [printUnset, if_neg hlen]
  simp

/-- What is printed of every snapshot of an entry is in the text of its list. -/
theorem mem_rows {α β : Type} {l : List α} {snapshot : α → β} {text : β × ℕ → CStr} {a : α}
    (ha : a ∈ l) {c : UInt8} (hc : ∀ n, c ∈ text (snapshot a, n)) :
    c ∈ (commaSeparated ((l.map snapshot).zipIdx.map text)).flatten := by
  obtain ⟨n, hn⟩ := List.getElem?_of_mem (List.mem_map_of_mem (f := snapshot) ha)
  rw [flatten_commaSeparated]
  exact JsonText.mem_joined
    (List.mem_map_of_mem (List.mk_mem_zipIdx_iff_getElem?.mpr hn)) (hc n)

theorem control_mem_of_id {i : Fin cfg.maxClients} (hi : i ∈ v.connected)
    (hlen : MQTT_CLIENT_ID_MAX - 1 ≤ (v.clients i).clientId.length) (behind : StackRest) :
    1 ∈ (v.appends controlBytes behind).flatten := by
  have hrow : 1 ∈ (commaSeparated ((clientGetSnapshots v.clients cfg.maxClients).zipIdx.map
      fun (c, i) ↦ clientText v.now (printUnset (MQTT_CLIENT_ID_MAX - 1) c.clientId
        (controlBytes.id i) (behind.id i)) c)).flatten := by
    refine mem_rows hi fun n ↦ ?_
    have hone : 1 ∈ printUnset (MQTT_CLIENT_ID_MAX - 1)
        ((v.clients i).clientId.take (MQTT_CLIENT_ID_MAX - 1)) (controlBytes.id n) (behind.id n) :=
      control_mem_printUnset hlen _
    simp [clientText, objText, joined, memberText, strText, hone]
  unfold appends
  simp only [List.flatten_append, List.mem_append]
  exact Or.inl (Or.inl (Or.inl (Or.inl (Or.inl (Or.inr hrow)))))

theorem control_mem_of_topic {e : RetainEntry} (he : e ∈ v.retained)
    (hlen : MQTT_TOPIC_MAX - 1 ≤ e.topic.length) (behind : StackRest) :
    1 ∈ (v.appends controlBytes behind).flatten := by
  have hrow : 1 ∈ (commaSeparated
      ((topicGetRetainSnapshots v.retains cfg.topicMaxSubs).zipIdx.map fun (r, i) ↦
        retainText (printUnset (MQTT_TOPIC_MAX - 1) r.topic (controlBytes.topic i)
          (behind.topic i)) r)).flatten := by
    refine mem_rows he fun n ↦ ?_
    have hone : 1 ∈ printUnset (MQTT_TOPIC_MAX - 1) (e.topic.take (MQTT_TOPIC_MAX - 1))
        (controlBytes.topic n) (behind.topic n) := control_mem_printUnset hlen _
    simp [retainText, objText, joined, memberText, strText, hone]
  unfold appends
  simp only [List.flatten_append, List.mem_append]
  exact Or.inl (Or.inr hrow)

theorem printable_of_right (hfits : v.Fits) {refuses : Bool} {behind : StackRest}
    (h : v.Right (v.handleStatus refuses controlBytes behind)) : v.Printable := by
  rw [right_iff] at h
  obtain ⟨hroom, hstands⟩ := h
  have hno : 1 ∉ (v.appends controlBytes behind).flatten := fun hone ↦
    absurd (JsonText.document_allowed hstands.2 1 hone) (by decide)
  have hid : ∀ i ∈ v.connected, (v.clients i).clientId.length < MQTT_CLIENT_ID_MAX - 1 :=
    fun i hi ↦ Nat.lt_of_not_le fun hlen ↦ hno (control_mem_of_id hi hlen behind)
  have htopic : ∀ e ∈ v.retained, e.topic.length < MQTT_TOPIC_MAX - 1 :=
    fun e he ↦ Nat.lt_of_not_le fun hlen ↦ hno (control_mem_of_topic he hlen behind)
  rw [flatten_appends hfits (harmless_of_short hid htopic controlBytes)] at hroom hstands
  rw [length_page] at hroom
  exact ⟨hroom, hid, htopic, v.standsFor_page.mp hstands⟩

end StatusView

/-! ## Every reachable state -/

namespace Broker

/-- What `handle_status` reads: each snapshot is taken in a state of its own, and `pool` is the
array `clients`. -/
def statusView (pool : Fin cfg.maxClients → κ) (now : ℤ) (b₁ b₂ b₃ : Broker cfg κ) :
    StatusView cfg κ where
  clients i := b₁.clients (pool i)
  table := b₂.table
  ids k := (b₂.clients k).clientId
  retains := b₃.retains
  now := now

end Broker

namespace Threads

variable {σ : Type} [DecidableEq κ] [DecidableEq σ] [Inhabited κ]
  {C : Threads cfg κ σ → ThreadEvent κ σ → Prop} {s : Threads cfg κ σ}

theorem fits_statusView (h : ReachBy C s) (pool : Fin cfg.maxClients → κ) (now : ℤ)
    (b₁ b₃ : Broker cfg κ) : (Broker.statusView pool now b₁ s.broker b₃).Fits where
  filter i huse := (tidy_of_reach h).table.short i ⟨_, _, _⟩
    (TopicTable.sub_eq_some_iff.mpr ⟨huse, rfl, rfl, rfl⟩)
  id _ _ := (tidy_of_reach h).ids _

/-- In every reachable state, and in whatever states the other two snapshots are taken, the page is
right for all values of the unset bytes if and only if it can be shown. -/
theorem status_right_iff (h : ReachBy C s) (pool : Fin cfg.maxClients → κ) (now : ℤ)
    (b₁ b₃ : Broker cfg κ) (refuses : Bool) (behind : StackRest) :
    let v := Broker.statusView pool now b₁ s.broker b₃
    (∀ unset, v.Right (v.handleStatus refuses unset behind)) ↔ v.Printable := by
  intro v
  have hfits : v.Fits := fits_statusView h pool now b₁ b₃
  exact ⟨fun hright ↦ StatusView.printable_of_right hfits (hright _),
    fun hprintable unset ↦ hprintable.right hfits refuses unset behind⟩

end Threads

namespace StatusSample

open Threads

def env : Env (Fin 8) := ⟨0, true, fun _ ↦ true⟩

/-- CONNECT of a client id of one byte. -/
def connectPkt (c : UInt8) : MqttPacket :=
  ⟨PacketType.connect, 13, [0, 4, 0x4D, 0x51, 0x54, 0x54, 4, 2, 0, 60, 0, 1, c]⟩

def events (c : UInt8) : List (ThreadEvent (Fin 8) Unit) :=
  [.alloc 0 5, .connect 0 env (connectPkt c), .next 0 env, .next 0 env]

/-- The client has its id. -/
def endOf (c : UInt8) : Option (Threads Config.posix (Fin 8) Unit) :=
  (init _ _ _).run (events c)

def view (s : Threads Config.posix (Fin 8) Unit) : StatusView Config.posix (Fin 8) :=
  Broker.statusView id 0 s.broker s.broker s.broker

def nothing : StackRest := ⟨fun _ ↦ [], fun _ ↦ []⟩

theorem exists_endOf {c : UInt8} (h : (endOf c).isSome = true) :
    ∃ s, endOf c = some s ∧ ReachBy (fun _ _ ↦ True) s := by
  have hend := (Option.some_get h).symm
  exact ⟨_, hend, ReachBy.init.run (fun _ _ _ ↦ trivial) hend⟩

end StatusSample

open StatusSample

/-- The page with the client `a`. -/
theorem status_right_iff_a : ∃ s : Threads Config.posix (Fin 8) Unit,
    Threads.ReachBy (fun _ _ ↦ True) s ∧ (view s).strings = [[0x61]] ∧
      ∀ unset, (view s).Right ((view s).handleStatus true unset nothing) := by
  obtain ⟨s, hend, hreach⟩ := exists_endOf (c := 0x61) (by decide +kernel)
  have hview : (endOf 0x61).map (fun s ↦ ((view s).strings, decide ((view s).length < STATUS_BUF),
      (view s).connected.map fun i ↦ ((view s).clients i).clientId, (view s).retained)) =
        some ([[0x61]], true, [[0x61]], []) := by decide +kernel
  rw [hend] at hview
  simp only [Option.map_some, Option.some.injEq, Prod.mk.injEq, decide_eq_true_eq] at hview
  obtain ⟨hstrings, hlength, hids, hretained⟩ := hview
  have hprintable : (view s).Printable := by
    refine ⟨hlength, ?_, by simp [hretained], ?_⟩
    · intro i hi
      have hid := List.mem_map_of_mem (f := fun i ↦ ((view s).clients i).clientId) hi
      rw [hids, List.mem_singleton] at hid
      rw [hid]
      decide
    · rw [hstrings, List.forall_mem_singleton]
      refine ⟨(JsonText.utf8Part_ascii ?_).utf8_iff.mpr trivial, ?_⟩ <;> decide +kernel
  exact ⟨s, hreach, hstrings,
    (Threads.status_right_iff hreach id 0 s.broker s.broker true nothing).mpr hprintable⟩

/-- The client id `"` ends its string. -/
theorem status_broken_by_quote : ¬ ∀ (s : Threads Config.posix (Fin 8) Unit),
    Threads.ReachBy (fun _ _ ↦ True) s → ∀ refuses unset behind,
      (view s).Right ((view s).handleStatus refuses unset behind) := by
  intro hall
  obtain ⟨s, hend, hreach⟩ := exists_endOf (c := 0x22) (by decide +kernel)
  have hstrings : (endOf 0x22).map (fun s ↦ (view s).strings) = some [[0x22]] := by decide +kernel
  rw [hend, Option.map_some, Option.some.injEq] at hstrings
  have hprintable : (view s).Printable :=
    StatusView.printable_of_right (Threads.fits_statusView hreach id 0 s.broker s.broker)
      (hall s hreach true StatusView.controlBytes nothing)
  have hplain := (hprintable.strings [0x22] (by rw [hstrings]; exact List.mem_singleton_self _)).2
  exact absurd (hplain 0x22 (List.mem_singleton_self _)) (by decide)

end MqttBroker
