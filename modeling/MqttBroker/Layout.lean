import MqttBroker.Lib.Codec
import MqttBroker.Lib.Cursor
import MqttBroker.Packet

/-!
# What the parsers accept

CONNECT, SUBSCRIBE and UNSUBSCRIBE as MQTT 3.1.1 lays them out.  The parsers of
`packet.c` accept the encodings of the values that keep the broker's limits, and
nothing else; and reading the packet at a moving position, as `packet.c` does,
they stay inside it.
-/

namespace MqttBroker

open Codec

/-! ## Fields -/

theorem bytes_of_u16 (a b : UInt8) :
    ((a.toUInt16 <<< 8 ||| b.toUInt16) >>> 8).toUInt8 = a ∧
      ((a.toUInt16 <<< 8 ||| b.toUInt16) &&& 0xFF).toUInt8 = b := by
  constructor <;> apply UInt8.toBitVec_inj.1 <;>
    simp only [UInt16.toBitVec_toUInt8, UInt16.toBitVec_shiftRight, UInt16.toBitVec_and,
      UInt16.toBitVec_or, UInt16.toBitVec_shiftLeft, UInt8.toBitVec_toUInt16] <;>
    ext i hi <;>
    interval_cases i <;>
    simp [BitVec.getElem_or, BitVec.getElem_shiftLeft]

theorem readU16_exact : Exact readU16 writeU16 fun _ ↦ True := by
  refine ⟨fun {buf v rest} ↦ ?_⟩
  constructor
  · intro h
    match buf with
    | a :: b :: tail =>
        obtain ⟨rfl, rfl⟩ := Prod.mk.inj (Option.some.inj h)
        obtain ⟨ha, hb⟩ := bytes_of_u16 a b
        refine ⟨?_, trivial⟩
        rw [writeU16, ha, hb]
        rfl
    | [_] => cases h
    | [] => cases h
  · rintro ⟨rfl, -⟩
    exact readU16_writeU16 v rest

theorem u16_ofNat_toNat (v : UInt16) : UInt16.ofNat v.toNat = v := UInt16.ofNat_toNat

/-- A string that the broker has room for. -/
def FitsIn (cap : ℕ) (s : CStr) : Prop := s.length < cap ∧ 0 ∉ s

theorem readStr_exact {cap : ℕ} (hcap : cap ≤ 2 ^ 16) :
    Exact (readStr cap) writeStr (FitsIn cap) := by
  refine ⟨fun {buf s rest} ↦ ?_⟩
  constructor
  · intro h
    refine ⟨?_, readStr_length_lt h, readStr_nul h⟩
    simp only [readStr, Option.bind_eq_bind, Option.bind_eq_some_iff] at h
    obtain ⟨⟨len, tail⟩, hlen, h⟩ := h
    obtain ⟨rfl, -⟩ := readU16_exact.iff.mp hlen
    split_ifs at h with hlong hnul
    obtain ⟨rfl, rfl⟩ := Prod.mk.inj (Option.some.inj h)
    have htake : (tail.take len.toNat).length = len.toNat :=
      List.length_take_of_le (not_lt.mp (not_or.mp hlong).1)
    rw [writeStr, htake, u16_ofNat_toNat, List.append_assoc, List.take_append_drop]
  · rintro ⟨rfl, hlen, hnul⟩
    exact readStr_writeStr hlen hcap hnul rest

/-! ## SUBSCRIBE and UNSUBSCRIBE -/

/-- A filter with its QoS. -/
def writeRequest (e : CStr × UInt8) : Bytes := writeStr e.1 ++ [e.2]

def subscribeLayout (packetId : UInt16) (topics : List (CStr × UInt8)) : Bytes :=
  writeU16 packetId ++ (topics.map writeRequest).flatten

def unsubscribeLayout (packetId : UInt16) (topics : List CStr) : Bytes :=
  writeU16 packetId ++ (topics.map writeStr).flatten

/-- What the round of the loop in `packet_parse_subscribe` reads. -/
def readRequest (buf : Bytes) : Option ((CStr × UInt8) × Bytes) := do
  let (topic, rest) ← readStr MQTT_TOPIC_MAX buf
  match rest with
  | [] => none
  | requestedQos :: rest =>
      if requestedQos &&& 0xFC ≠ 0 ∨ 2 < requestedQos then none
      else some ((topic, requestedQos), rest)

theorem requestedQos_iff (q : UInt8) : ¬ (q &&& 0xFC ≠ 0 ∨ 2 < q) ↔ q ≤ 2 := by
  constructor
  · intro h
    exact UInt8.not_lt.mp (not_or.mp h).2
  · intro h
    rcases u8_le_two h with rfl | rfl | rfl <;> decide

theorem readRequest_exact : Exact readRequest writeRequest
    fun e ↦ FitsIn MQTT_TOPIC_MAX e.1 ∧ e.2 ≤ 2 := by
  refine ⟨fun {buf e rest} ↦ ?_⟩
  have hstr : Exact (readStr MQTT_TOPIC_MAX) writeStr (FitsIn MQTT_TOPIC_MAX) :=
    readStr_exact (by decide)
  constructor
  · intro hread
    obtain ⟨⟨topic, tail⟩, htopic, hqos⟩ := Option.bind_eq_some_iff.mp hread
    obtain ⟨hbuf, hfits⟩ := hstr.iff.mp htopic
    cases tail with
    | nil => cases hqos
    | cons q tail =>
        dsimp only at hqos
        split_ifs at hqos with hbad
        obtain ⟨rfl, rfl⟩ := Prod.mk.inj (Option.some.inj hqos)
        subst hbuf
        refine ⟨?_, hfits, (requestedQos_iff q).mp hbad⟩
        rw [writeRequest, List.append_assoc, List.singleton_append]
  · rintro ⟨rfl, hfits, hqos⟩
    have htopic : readStr MQTT_TOPIC_MAX (writeRequest e ++ rest) = some (e.1, e.2 :: rest) :=
      hstr.iff.mpr ⟨by rw [writeRequest, List.append_assoc, List.singleton_append], hfits⟩
    unfold readRequest
    rw [htopic]
    exact if_neg ((requestedQos_iff e.2).mpr hqos)

theorem parseSubscribeFrom_eq (k : ℕ) (buf : Bytes) :
    parseSubscribeFrom k buf = many readRequest k buf := by
  induction k generalizing buf with
  | zero => cases buf <;> rfl
  | succ k ih =>
      cases buf with
      | nil => rfl
      | cons b buf =>
          simp only [parseSubscribeFrom, many, readRequest, Option.bind_eq_bind]
          cases readStr MQTT_TOPIC_MAX (b :: buf) with
          | none => rfl
          | some r =>
              obtain ⟨topic, rest⟩ := r
              cases rest with
              | nil => rfl
              | cons q rest =>
                  simp only [Option.bind_some, ih]
                  split_ifs <;> rfl

theorem parseUnsubscribeFrom_eq (k : ℕ) (buf : Bytes) :
    parseUnsubscribeFrom k buf = many (readStr MQTT_TOPIC_MAX) k buf := by
  induction k generalizing buf with
  | zero => cases buf <;> rfl
  | succ k ih =>
      cases buf with
      | nil => rfl
      | cons b buf =>
          simp only [parseUnsubscribeFrom, many, ih]
          rfl

/-- The packet id and the items of a SUBSCRIBE or UNSUBSCRIBE. -/
theorem items_exact {α : Type} [DecidableEq α] {p : Bytes → Option (α × Bytes)} {enc : α → Bytes}
    {valid : α → Prop} (h : Exact p enc valid) (hne : ∀ a, enc a ≠ []) {maxTopics : ℕ}
    {buf : Bytes} {id : UInt16} {items : List α} :
    ((readU16 buf).bind fun r ↦
      if r.1 = 0 then none
      else (many p maxTopics r.2).bind fun l ↦ if l = [] then none else some (r.1, l)) =
        some (id, items) ↔
      buf = writeU16 id ++ (items.map enc).flatten ∧ id ≠ 0 ∧ (∀ a ∈ items, valid a) ∧
        1 ≤ items.length ∧ items.length ≤ maxTopics := by
  have hmany : ∀ {rest l}, many p maxTopics rest = some l ↔
      rest = (l.map enc).flatten ∧ (∀ a ∈ l, valid a) ∧ l.length ≤ maxTopics :=
    h.many fun a _ ↦ hne a
  constructor
  · intro hread
    obtain ⟨⟨id', rest⟩, hid, hitems⟩ := Option.bind_eq_some_iff.mp hread
    obtain ⟨hbuf, -⟩ := readU16_exact.iff.mp hid
    split_ifs at hitems with hzero
    obtain ⟨l, hl, hsome⟩ := Option.bind_eq_some_iff.mp hitems
    split_ifs at hsome with hnil
    obtain ⟨rfl, rfl⟩ := Prod.mk.inj (Option.some.inj hsome)
    obtain ⟨rfl, hvalid, hlen⟩ := hmany.mp hl
    exact ⟨hbuf, hzero, hvalid, List.length_pos_iff.mpr hnil, hlen⟩
  · rintro ⟨rfl, hzero, hvalid, hpos, hlen⟩
    rw [readU16_writeU16, Option.bind_some, if_neg hzero, hmany.mpr ⟨rfl, hvalid, hlen⟩,
      Option.bind_some, if_neg (List.length_pos_iff.mp hpos)]

theorem packetParseSubscribe_iff {pkt : MqttPacket} {maxTopics : ℕ} {id : UInt16}
    {topics : List (CStr × UInt8)} :
    packetParseSubscribe pkt maxTopics = some (id, topics) ↔
      pkt.buf = subscribeLayout id topics ∧ id ≠ 0 ∧
        (∀ e ∈ topics, FitsIn MQTT_TOPIC_MAX e.1 ∧ e.2 ≤ 2) ∧
        1 ≤ topics.length ∧ topics.length ≤ maxTopics := by
  simp only [packetParseSubscribe, parseSubscribeFrom_eq]
  exact items_exact readRequest_exact (by simp [writeRequest])

theorem packetParseUnsubscribe_iff {pkt : MqttPacket} {maxTopics : ℕ} {id : UInt16}
    {topics : List CStr} :
    packetParseUnsubscribe pkt maxTopics = some (id, topics) ↔
      pkt.buf = unsubscribeLayout id topics ∧ id ≠ 0 ∧
        (∀ s ∈ topics, FitsIn MQTT_TOPIC_MAX s) ∧
        1 ≤ topics.length ∧ topics.length ≤ maxTopics := by
  simp only [packetParseUnsubscribe, parseUnsubscribeFrom_eq]
  exact items_exact (readStr_exact (by decide)) (by simp [writeStr, writeU16])

/-! ## CONNECT -/

/-- The connect flags. -/
def connectFlags (cleanSession hasWill hasPassword hasUsername : Bool) (willQos willRetain : UInt8) :
    UInt8 :=
  let bit (flag : Bool) (mask : UInt8) : UInt8 := if flag then mask else 0
  bit cleanSession 0x02 ||| bit hasWill 0x04 ||| willQos <<< 3 ||| willRetain <<< 5 |||
    bit hasPassword 0x40 ||| bit hasUsername 0x80

namespace MqttConnect

def flags (conn : MqttConnect) : UInt8 :=
  connectFlags conn.cleanSession conn.hasWill conn.hasPassword conn.hasUsername conn.willQos
    conn.willRetain

/-- The payload of a CONNECT. -/
def payload (conn : MqttConnect) : Bytes :=
  writeStr conn.clientId ++
    ((if conn.hasWill then writeStr conn.willTopic ++ writeStr conn.willPayload else []) ++
      ((if conn.hasUsername then writeStr conn.username else []) ++
        if conn.hasPassword then writeStr conn.password else []))

def layout (conn : MqttConnect) : Bytes :=
  writeStr protocolName ++ (4 :: conn.flags :: (writeU16 conn.keepalive ++ conn.payload))

/-- The limits of the broker, with the flag rules that `packet_parse_connect` checks. -/
structure WithinLimits (conn : MqttConnect) : Prop where
  clientId : FitsIn MQTT_CLIENT_ID_MAX conn.clientId
  will : if conn.hasWill then
      FitsIn MQTT_TOPIC_MAX conn.willTopic ∧ conn.willPayload.length ≤ WILL_PAYLOAD_MAX
    else conn.willTopic = [] ∧ conn.willPayload = []
  willFlags : conn.willQos ≤ 3 ∧ conn.willRetain ≤ 1 ∧
    (conn.hasWill = false → conn.willQos = 0 ∧ conn.willRetain = 0)
  username : if conn.hasUsername then FitsIn MQTT_USERNAME_MAX conn.username else conn.username = []
  password : if conn.hasPassword then FitsIn MQTT_PASSWORD_MAX conn.password else conn.password = []
  passwordFlag : conn.hasPassword = true → conn.hasUsername = true

end MqttConnect

theorem connectFlags_of_bits (f : UInt8) :
    connectFlags ((f >>> 1) &&& 1 = 1) ((f >>> 2) &&& 1 = 1) ((f >>> 6) &&& 1 = 1)
      ((f >>> 7) &&& 1 = 1) ((f >>> 3) &&& 3) ((f >>> 5) &&& 1) = f &&& 0xFE ∧
      (f >>> 3) &&& 3 ≤ 3 ∧ (f >>> 5) &&& 1 ≤ 1 := by
  have hall : ∀ n < 256, connectFlags ((UInt8.ofNat n >>> 1) &&& 1 = 1)
      ((UInt8.ofNat n >>> 2) &&& 1 = 1) ((UInt8.ofNat n >>> 6) &&& 1 = 1)
      ((UInt8.ofNat n >>> 7) &&& 1 = 1) ((UInt8.ofNat n >>> 3) &&& 3)
      ((UInt8.ofNat n >>> 5) &&& 1) = UInt8.ofNat n &&& 0xFE ∧
      (UInt8.ofNat n >>> 3) &&& 3 ≤ 3 ∧ (UInt8.ofNat n >>> 5) &&& 1 ≤ 1 := by
    decide +kernel
  simpa only [UInt8.ofNat_toNat] using hall f.toNat f.toNat_lt

theorem bits_of_connectFlags (c w p u : Bool) {q r : UInt8} (hq : q ≤ 3) (hr : r ≤ 1) :
    let f := connectFlags c w p u q r
    f &&& 1 = 0 ∧ ((f >>> 1) &&& 1 = 1 ↔ c = true) ∧ ((f >>> 2) &&& 1 = 1 ↔ w = true) ∧
      ((f >>> 6) &&& 1 = 1 ↔ p = true) ∧ ((f >>> 7) &&& 1 = 1 ↔ u = true) ∧
      (f >>> 3) &&& 3 = q ∧ (f >>> 5) &&& 1 = r := by
  have hqos : q = 0 ∨ q = 1 ∨ q = 2 ∨ q = 3 := by grind
  have hretain : r = 0 ∨ r = 1 := by grind
  rcases hqos with rfl | rfl | rfl | rfl <;> rcases hretain with rfl | rfl <;>
    revert c w p u <;> decide +kernel

theorem and_even {f : UInt8} (h : f &&& 1 = 0) : f &&& 0xFE = f := by
  have hall : ∀ n < 256, UInt8.ofNat n &&& 1 = 0 → UInt8.ofNat n &&& 0xFE = UInt8.ofNat n := by
    decide +kernel
  have hf := hall f.toNat f.toNat_lt
  rw [UInt8.ofNat_toNat] at hf
  exact hf h

theorem readStrIf_exact (flag : Bool) {cap : ℕ} (hcap : cap ≤ 2 ^ 16) :
    Exact (readStrIf flag cap) (fun s ↦ if flag then writeStr s else [])
      (fun s ↦ if flag then FitsIn cap s else s = []) := (readStr_exact hcap).onlyIf flag []

/-- A payload with its length. -/
def readBlob (buf : Bytes) : Option (Bytes × Bytes) := do
  let (len, rest) ← readU16 buf
  if rest.length < len.toNat ∨ WILL_PAYLOAD_MAX < len.toNat then none
  else some (rest.take len.toNat, rest.drop len.toNat)

theorem readBlob_exact : Exact readBlob writeStr fun w ↦ w.length ≤ WILL_PAYLOAD_MAX := by
  refine ⟨fun {buf w rest} ↦ ?_⟩
  constructor
  · intro h
    obtain ⟨⟨len, tail⟩, hlen, h⟩ := Option.bind_eq_some_iff.mp h
    obtain ⟨hbuf, -⟩ := readU16_exact.iff.mp hlen
    dsimp only at h
    split_ifs at h with hlong
    obtain ⟨rfl, rfl⟩ := Prod.mk.inj (Option.some.inj h)
    simp only [not_or, not_lt] at hlong
    have htake : (tail.take len.toNat).length = len.toNat := List.length_take_of_le hlong.1
    refine ⟨?_, htake.trans_le hlong.2⟩
    rw [hbuf, writeStr, htake, u16_ofNat_toNat, List.append_assoc, List.take_append_drop]
  · rintro ⟨rfl, hlen⟩
    have htoNat : (UInt16.ofNat w.length).toNat = w.length := by
      rw [UInt16.toNat_ofNat']
      exact Nat.mod_eq_of_lt (lt_of_le_of_lt hlen (by decide))
    unfold readBlob
    rw [writeStr, List.append_assoc, readU16_writeU16]
    simp [htoNat, hlen]

theorem readWillIf_true (buf : Bytes) :
    ((readWillIf true buf).map fun v ↦ ((v.1, v.2.1), v.2.2)) =
      (readStr MQTT_TOPIC_MAX buf).bind fun r ↦ (readBlob r.2).bind fun s ↦
        some ((r.1, s.1), s.2) := by
  simp only [readWillIf, if_true, readBlob, Option.bind_eq_bind]
  cases readStr MQTT_TOPIC_MAX buf with
  | none => rfl
  | some r =>
      simp only [Option.bind_some]
      cases readU16 r.2 with
      | none => rfl
      | some l =>
          simp only [Option.bind_some]
          split_ifs <;> rfl

theorem readWillIf_iff {flag : Bool} {buf rest : Bytes} {topic : CStr} {payload : Bytes} :
    readWillIf flag buf = some (topic, payload, rest) ↔
      buf = (if flag then writeStr topic ++ writeStr payload else []) ++ rest ∧
        (if flag then FitsIn MQTT_TOPIC_MAX topic ∧ payload.length ≤ WILL_PAYLOAD_MAX
          else topic = [] ∧ payload = []) := by
  cases flag with
  | false =>
      simp only [readWillIf, Bool.false_eq_true, if_false, Option.some.injEq, Prod.mk.injEq,
        List.nil_append]
      constructor
      · rintro ⟨rfl, rfl, rfl⟩
        exact ⟨rfl, rfl, rfl⟩
      · rintro ⟨rfl, rfl, rfl⟩
        exact ⟨rfl, rfl, rfl⟩
  | true =>
      have hwill := (readStr_exact (by decide : MQTT_TOPIC_MAX ≤ 2 ^ 16)).andThen
        fun _ ↦ readBlob_exact
      have hmap : readWillIf true buf = some (topic, payload, rest) ↔
          ((readWillIf true buf).map fun v ↦ ((v.1, v.2.1), v.2.2)) =
            some ((topic, payload), rest) := by
        cases readWillIf true buf <;> simp [Prod.ext_iff, and_assoc]
      rw [hmap, readWillIf_true]
      exact hwill.iff

theorem parseConnectFlags_iff {f : UInt8} {keepalive : UInt16} {buf : Bytes} {conn : MqttConnect} :
    parseConnectFlags f keepalive buf = some conn ↔
      f = conn.flags ∧ keepalive = conn.keepalive ∧ buf = conn.payload ∧ conn.WithinLimits := by
  have hid := readStr_exact (by decide : MQTT_CLIENT_ID_MAX ≤ 2 ^ 16)
  constructor
  · intro h
    obtain ⟨hflags, hqos, hretain⟩ := connectFlags_of_bits f
    unfold parseConnectFlags at h
    dsimp only at h
    split_ifs at h with hreserved hwill hpass
    simp only [Option.bind_eq_bind, Option.bind_eq_some_iff] at h
    obtain ⟨⟨clientId, r₁⟩, h₁, ⟨topic, payload, r₂⟩, h₂, ⟨user, r₃⟩, h₃, ⟨pass, r₄⟩, h₄, h⟩ := h
    split_ifs at h with hrest
    obtain rfl : r₄ = [] := not_not.mp hrest
    obtain rfl := Option.some.inj h
    obtain ⟨rfl, hid'⟩ := hid.iff.mp h₁
    obtain ⟨rfl, hwill'⟩ := readWillIf_iff.mp h₂
    obtain ⟨rfl, huser⟩ := (readStrIf_exact _ (by decide)).iff.mp h₃
    obtain ⟨rfl, hpass'⟩ := (readStrIf_exact _ (by decide)).iff.mp h₄
    refine ⟨(hflags.trans (and_even (not_not.mp hreserved))).symm, rfl, ?_, ⟨hid', ?_,
      ⟨hqos, hretain, fun hnone ↦ ?_⟩, huser, hpass', fun hset ↦ ?_⟩⟩
    · simp only [MqttConnect.payload, List.append_nil]
    · simpa only [decide_eq_true_eq] using hwill'
    · have hclear : ¬ (f >>> 2) &&& 1 = 1 := of_decide_eq_false hnone
      simpa only [hclear, not_false_eq_true, true_and, not_or, not_not] using hwill
    · have hboth := not_and.mp hpass (of_decide_eq_true hset)
      exact decide_eq_true (not_not.mp hboth)
  · rintro ⟨rfl, rfl, rfl, hlim⟩
    obtain ⟨hreserved, hclean, hwill, hpass, huser, hqos, hretain⟩ :=
      bits_of_connectFlags conn.cleanSession conn.hasWill conn.hasPassword conn.hasUsername
        hlim.willFlags.1 hlim.willFlags.2.1
    change conn.flags &&& 1 = 0 at hreserved
    change (conn.flags >>> 1) &&& 1 = 1 ↔ _ at hclean
    change (conn.flags >>> 2) &&& 1 = 1 ↔ _ at hwill
    change (conn.flags >>> 6) &&& 1 = 1 ↔ _ at hpass
    change (conn.flags >>> 7) &&& 1 = 1 ↔ _ at huser
    change (conn.flags >>> 3) &&& 3 = _ at hqos
    change (conn.flags >>> 5) &&& 1 = _ at hretain
    have hnowill : ¬ (¬ conn.hasWill = true ∧ (conn.willQos ≠ 0 ∨ conn.willRetain ≠ 0)) := by
      rintro ⟨hnone, hset⟩
      obtain ⟨hq, hr⟩ := hlim.willFlags.2.2 (Bool.not_eq_true _ ▸ hnone)
      exact hset.elim (fun h ↦ h hq) fun h ↦ h hr
    have hnopass : ¬ (conn.hasPassword = true ∧ ¬ conn.hasUsername = true) := fun h ↦
      h.2 (hlim.passwordFlag h.1)
    have hwillRead : ∀ rest, readWillIf conn.hasWill ((if conn.hasWill then writeStr conn.willTopic ++
        writeStr conn.willPayload else []) ++ rest) = some (conn.willTopic, conn.willPayload, rest) :=
      fun rest ↦ readWillIf_iff.mpr ⟨rfl, hlim.will⟩
    have huserRead := (readStrIf_exact conn.hasUsername (by decide)).read hlim.username
    have hpassRead := (readStrIf_exact conn.hasPassword (by decide)).read hlim.password []
    rw [List.append_nil] at hpassRead
    unfold parseConnectFlags
    simp only [hreserved, hclean, hwill, hpass, huser, hqos, hretain, ne_eq, not_true, if_false,
      Bool.decide_eq_true]
    rw [if_neg hnowill, if_neg hnopass, MqttConnect.payload, hid.read hlim.clientId]
    simp only [Option.bind_eq_bind, Option.bind_some, hwillRead, huserRead, hpassRead, not_true,
      if_false]

/-- `packet_parse_connect` accepts the encodings of the values within the limits. -/
theorem packetParseConnect_iff {pkt : MqttPacket} {conn : MqttConnect} :
    packetParseConnect pkt = .ok conn ↔ pkt.buf = conn.layout ∧ conn.WithinLimits := by
  have hname := readStr_exact (by decide : 8 ≤ 2 ^ 16)
  constructor
  · intro h
    unfold packetParseConnect at h
    split at h
    · cases h
    · rename_i proto rest hproto
      split_ifs at h with hne
      obtain rfl : proto = protocolName := not_not.mp hne
      split at h
      · split_ifs at h with hlevel
        split at h
        · rename_i _ f hi lo tail _ _ hflags
          cases h
          obtain ⟨hbuf, -⟩ := hname.iff.mp hproto
          obtain ⟨rfl, hkeep, rfl, hlim⟩ := parseConnectFlags_iff.mp hflags
          obtain ⟨hhi, hlo⟩ := bytes_of_u16 hi lo
          refine ⟨?_, hlim⟩
          rw [hbuf, MqttConnect.layout, ← hkeep, not_not.mp hlevel, writeU16, hhi, hlo]
          rfl
        · cases h
      · cases h
  · rintro ⟨hbuf, hlim⟩
    have hproto : readStr 8 pkt.buf = some (protocolName,
        4 :: conn.flags :: (writeU16 conn.keepalive ++ conn.payload)) :=
      hname.iff.mpr ⟨hbuf, by decide, by decide⟩
    have hflags : parseConnectFlags conn.flags
        ((conn.keepalive >>> 8).toUInt8.toUInt16 <<< 8 |||
          (conn.keepalive &&& 0xFF).toUInt8.toUInt16) conn.payload = some conn := by
      rw [u16_of_bytes]
      exact parseConnectFlags_iff.mpr ⟨rfl, rfl, rfl, hlim⟩
    unfold packetParseConnect
    rw [hproto]
    simp only [ne_eq, not_true, if_false, writeU16, List.cons_append, List.nil_append, hflags]

/-! ## Reading at a position -/

open Cursor

/-- The result of a parser that is given the first `buf_len` bytes. -/
abbrev Read := Except (Failure ℤ)

/-- `read_u16` -/
def readU16At (buf : Bytes) (pos : ℕ) : Read UInt16 := do
  let hi ← byteAt buf pos
  let lo ← byteAt buf (pos + 1)
  .ok (hi.toUInt16 <<< 8 ||| lo.toUInt16)

/-- `if (pos + 2 > len) return -1;`, and then `read_u16`. -/
def checkedU16At (buf : Bytes) (pos : ℕ) : Read (UInt16 × ℕ) :=
  if buf.length < pos + 2 then refuse (-1)
  else do
    let v ← readU16At buf pos
    .ok (v, pos + 2)

/-- `read_str` -/
def readStrAt (outCap : ℕ) (buf : Bytes) (pos : ℕ) : Read (CStr × ℕ) := do
  let (len, pos) ← checkedU16At buf pos
  if buf.length < pos + len.toNat ∨ outCap ≤ len.toNat then refuse (-1)
  else
    let s ← sliceAt buf pos len.toNat
    if 0 ∈ s then refuse (-1) else .ok (s, pos + len.toNat)

def readStrIfAt (flag : Bool) (outCap : ℕ) (buf : Bytes) (pos : ℕ) : Read (CStr × ℕ) :=
  if flag then readStrAt outCap buf pos else .ok ([], pos)

/-- The payload of the will. -/
def readBlobAt (buf : Bytes) (pos : ℕ) : Read (Bytes × ℕ) := do
  let (len, pos) ← checkedU16At buf pos
  if buf.length < pos + len.toNat ∨ WILL_PAYLOAD_MAX < len.toNat then refuse (-1)
  else
    let payload ← sliceAt buf pos len.toNat
    .ok (payload, pos + len.toNat)

/-- The will in `packet_parse_connect`. -/
def readWillIfAt (flag : Bool) (buf : Bytes) (pos : ℕ) : Read ((CStr × Bytes) × ℕ) :=
  if flag then do
    let (topic, pos) ← readStrAt MQTT_TOPIC_MAX buf pos
    let (payload, pos) ← readBlobAt buf pos
    .ok ((topic, payload), pos)
  else .ok (([], []), pos)

/-- `packet_parse_connect` from the connect flags on, with the keepalive at `pos`. -/
def parseConnectFlagsAt (flags : UInt8) (buf : Bytes) (pos : ℕ) : Read MqttConnect :=
  let hasWill := (flags >>> 2) &&& 1 = 1
  let willQos := (flags >>> 3) &&& 3
  let willRetain := (flags >>> 5) &&& 1
  let hasPassword := (flags >>> 6) &&& 1 = 1
  let hasUsername := (flags >>> 7) &&& 1 = 1
  if flags &&& 1 ≠ 0 then refuse (-1)
  else if ¬hasWill ∧ (willQos ≠ 0 ∨ willRetain ≠ 0) then refuse (-1)
  else if hasPassword ∧ ¬hasUsername then refuse (-1)
  else do
    let keepalive ← readU16At buf pos
    let (clientId, pos) ← readStrAt MQTT_CLIENT_ID_MAX buf (pos + 2)
    let ((willTopic, willPayload), pos) ← readWillIfAt hasWill buf pos
    let (username, pos) ← readStrIfAt hasUsername MQTT_USERNAME_MAX buf pos
    let (password, pos) ← readStrIfAt hasPassword MQTT_PASSWORD_MAX buf pos
    if pos ≠ buf.length then refuse (-1)
    else .ok ⟨clientId, (flags >>> 1) &&& 1 = 1, keepalive, hasWill, willTopic, willPayload,
      willQos, willRetain, hasUsername, hasPassword, username, password⟩

/-- `packet_parse_connect` -/
def packetParseConnectAt (buf : Bytes) : Read MqttConnect := do
  let (proto, pos) ← readStrAt 8 buf 0
  if proto ≠ protocolName then refuse (-1)
  else if buf.length < pos + 4 then refuse (-1)
  else
    let protoLevel ← byteAt buf pos
    if protoLevel ≠ 4 then refuse (-2)
    else
      let flags ← byteAt buf (pos + 1)
      parseConnectFlagsAt flags buf (pos + 2)

/-- A round of the loop in `packet_parse_subscribe`. -/
def readRequestAt (buf : Bytes) (pos : ℕ) : Read ((CStr × UInt8) × ℕ) := do
  let (topic, pos) ← readStrAt MQTT_TOPIC_MAX buf pos
  if buf.length ≤ pos then refuse (-1)
  else
    let requestedQos ← byteAt buf pos
    if requestedQos &&& 0xFC ≠ 0 ∨ 2 < requestedQos then refuse (-1)
    else .ok ((topic, requestedQos), pos + 1)

/-- `packet_parse_subscribe` and `packet_parse_unsubscribe`, which differ in the loop. -/
def parseItemsAt {α : Type} [DecidableEq α] (item : ℕ → Read (α × ℕ)) (buf : Bytes)
    (maxTopics : ℕ) : Read (UInt16 × List α) := do
  let (packetId, pos) ← checkedU16At buf 0
  if packetId = 0 then refuse (-1)
  else
    let items ← manyAt (-1) item buf.length maxTopics pos
    if items = [] then refuse (-1) else .ok (packetId, items)

/-- `packet_parse_subscribe` -/
def packetParseSubscribeAt (buf : Bytes) : ℕ → Read (UInt16 × List (CStr × UInt8)) :=
  parseItemsAt (readRequestAt buf) buf

/-- `packet_parse_unsubscribe` -/
def packetParseUnsubscribeAt (buf : Bytes) : ℕ → Read (UInt16 × List CStr) :=
  parseItemsAt (readStrAt MQTT_TOPIC_MAX buf) buf

/-! ## No read outside the packet -/

section Tracking

variable {buf : Bytes} {pos : ℕ}

theorem readU16At_of_drop {hi lo : UInt8} {rest : Bytes} (h : buf.drop pos = hi :: lo :: rest) :
    readU16At buf pos = .ok (hi.toUInt16 <<< 8 ||| lo.toUInt16) := by
  unfold readU16At
  rw [byteAt_of_drop h, byteAt_of_drop (drop_succ_of_drop h)]
  rfl

theorem checkedU16At_tracks (hpos : pos ≤ buf.length) :
    Tracks buf (-1) (checkedU16At buf pos) (readU16 (buf.drop pos)) := by
  unfold checkedU16At
  have hlen : (buf.drop pos).length = buf.length - pos := List.length_drop
  match h : buf.drop pos with
  | [] =>
      rw [h, List.length_nil] at hlen
      rw [if_pos (by omega)]
      rfl
  | [_] =>
      rw [h, List.length_singleton] at hlen
      rw [if_pos (by omega)]
      rfl
  | hi :: lo :: rest =>
      rw [h, List.length_cons, List.length_cons] at hlen
      rw [if_neg (by omega), readU16At_of_drop h]
      exact ⟨pos + 2, by omega, rfl, drop_succ_of_drop (drop_succ_of_drop h)⟩

theorem readStrAt_tracks (outCap : ℕ) (hpos : pos ≤ buf.length) :
    Tracks buf (-1) (readStrAt outCap buf pos) (readStr outCap (buf.drop pos)) := by
  refine (checkedU16At_tracks hpos).bind fun len pos hpos ↦ ?_
  have hlen : (buf.drop pos).length = buf.length - pos := List.length_drop
  have hiff : (buf.length < pos + len.toNat ∨ outCap ≤ len.toNat) ↔
      ((buf.drop pos).length < len.toNat ∨ outCap ≤ len.toNat) := by omega
  simp only [hiff]
  refine Tracks.guard fun hfit ↦ ?_
  have hend : pos + len.toNat ≤ buf.length := by omega
  rw [sliceAt_eq hend]
  refine Tracks.guard fun _ ↦ ?_
  rw [List.drop_drop]
  exact Tracks.ok hend _

theorem readStrIfAt_tracks (flag : Bool) (outCap : ℕ) (hpos : pos ≤ buf.length) :
    Tracks buf (-1) (readStrIfAt flag outCap buf pos) (readStrIf flag outCap (buf.drop pos)) := by
  cases flag with
  | false => exact Tracks.ok hpos _
  | true => exact readStrAt_tracks outCap hpos

theorem readBlobAt_tracks (hpos : pos ≤ buf.length) :
    Tracks buf (-1) (readBlobAt buf pos) (readBlob (buf.drop pos)) := by
  refine (checkedU16At_tracks hpos).bind fun len pos hpos ↦ ?_
  have hlen : (buf.drop pos).length = buf.length - pos := List.length_drop
  have hiff : (buf.length < pos + len.toNat ∨ WILL_PAYLOAD_MAX < len.toNat) ↔
      ((buf.drop pos).length < len.toNat ∨ WILL_PAYLOAD_MAX < len.toNat) := by omega
  simp only [hiff]
  refine Tracks.guard fun hfit ↦ ?_
  have hend : pos + len.toNat ≤ buf.length := by omega
  rw [sliceAt_eq hend, List.drop_drop]
  exact Tracks.ok hend _

theorem readWillIfAt_tracks (flag : Bool) (hpos : pos ≤ buf.length) :
    Tracks buf (-1) (readWillIfAt flag buf pos)
      ((readWillIf flag (buf.drop pos)).map fun v ↦ ((v.1, v.2.1), v.2.2)) := by
  cases flag with
  | false => exact Tracks.ok hpos _
  | true =>
      rw [readWillIf_true]
      refine (readStrAt_tracks _ hpos).bind fun topic pos hpos ↦ ?_
      exact (readBlobAt_tracks hpos).bind fun payload pos hpos ↦ Tracks.ok hpos _

theorem parseConnectFlagsAt_eq (flags : UInt8) {hi lo : UInt8} {rest : Bytes}
    (h : buf.drop pos = hi :: lo :: rest) : parseConnectFlagsAt flags buf pos =
      ofOption (-1) (parseConnectFlags flags (hi.toUInt16 <<< 8 ||| lo.toUInt16) rest) := by
  have hrest : buf.drop (pos + 2) = rest := drop_succ_of_drop (drop_succ_of_drop h)
  have hpos : pos + 2 ≤ buf.length := by
    have hlen : (buf.drop pos).length = buf.length - pos := List.length_drop
    rw [h, List.length_cons, List.length_cons] at hlen
    omega
  subst hrest
  unfold parseConnectFlagsAt parseConnectFlags
  rw [readU16At_of_drop h]
  dsimp only
  by_cases hreserved : flags &&& 1 ≠ 0
  · rw [if_pos hreserved, if_pos hreserved]
    rfl
  rw [if_neg hreserved, if_neg hreserved]
  by_cases hwill : ¬(flags >>> 2) &&& 1 = 1 ∧
      ((flags >>> 3) &&& 3 ≠ 0 ∨ (flags >>> 5) &&& 1 ≠ 0)
  · rw [if_pos hwill, if_pos hwill]
    rfl
  rw [if_neg hwill, if_neg hwill]
  by_cases hpass : (flags >>> 6) &&& 1 = 1 ∧ ¬(flags >>> 7) &&& 1 = 1
  · rw [if_pos hpass, if_pos hpass]
    rfl
  rw [if_neg hpass, if_neg hpass]
  refine (readStrAt_tracks _ hpos).finish fun clientId pos hpos ↦ ?_
  have htracks := readWillIfAt_tracks ((flags >>> 2) &&& 1 = 1) hpos
  dsimp only
  cases hread : readWillIf ((flags >>> 2) &&& 1 = 1) (buf.drop pos) with
  | none =>
      rw [hread] at htracks
      have hfail : readWillIfAt ((flags >>> 2) &&& 1 = 1) buf pos = refuse (-1) := htracks
      rw [hfail]
      rfl
  | some v =>
      obtain ⟨topic, payload, rest⟩ := v
      rw [hread] at htracks
      obtain ⟨pos', hpos', hok, rfl⟩ := htracks
      rw [hok]
      refine (readStrIfAt_tracks _ _ hpos').finish fun username pos hpos ↦ ?_
      refine (readStrIfAt_tracks _ _ hpos).finish fun password pos hpos ↦ ?_
      have hend : pos ≠ buf.length ↔ buf.drop pos ≠ [] := by
        rw [ne_eq, ne_eq, List.drop_eq_nil_iff]
        omega
      dsimp only
      by_cases hleft : pos ≠ buf.length
      · rw [if_pos hleft, if_pos (hend.mp hleft)]
        rfl
      · rw [if_neg hleft, if_neg (hend.not.mp hleft)]
        rfl

/-- The code of the failure that a parser on lists reports. -/
def ofExcept {α : Type} : Except ℤ α → Read α
  | .ok a => .ok a
  | .error e => refuse e

theorem packetParseConnectAt_eq (typeFlags : UInt8) (remainingLen : ℕ) (buf : Bytes) :
    packetParseConnectAt buf = ofExcept (packetParseConnect ⟨typeFlags, remainingLen, buf⟩) := by
  have hname : Tracks buf (-1) (readStrAt 8 buf 0) (readStr 8 (buf.drop 0)) :=
    readStrAt_tracks 8 (Nat.zero_le _)
  rw [List.drop_zero] at hname
  unfold packetParseConnectAt packetParseConnect
  dsimp only
  cases hproto : readStr 8 buf with
  | none =>
      rw [hproto] at hname
      have hfail : readStrAt 8 buf 0 = refuse (-1) := hname
      rw [hfail]
      rfl
  | some r =>
      obtain ⟨proto, rest⟩ := r
      rw [hproto] at hname
      obtain ⟨pos, hpos, hread, hdrop⟩ := hname
      rw [hread]
      have hlen : rest.length = buf.length - pos := by rw [← hdrop, List.length_drop]
      change (if proto ≠ protocolName then _ else _) = _
      dsimp only
      by_cases hne : proto ≠ protocolName
      · rw [if_pos hne, if_pos hne]
        rfl
      · rw [if_neg hne, if_neg hne]
        match rest, hdrop, hlen with
        | [], _, hlen | [_], _, hlen | [_, _], _, hlen | [_, _, _], _, hlen =>
            simp only [List.length_nil, List.length_cons] at hlen
            rw [if_pos (by omega)]
            rfl
        | level :: flags :: hi :: lo :: tail, hdrop, hlen =>
            simp only [List.length_cons] at hlen
            have h₁ := drop_succ_of_drop hdrop
            rw [if_neg (by omega), byteAt_of_drop hdrop]
            change (if level ≠ 4 then _ else _) = _
            dsimp only
            by_cases hlevel : level ≠ 4
            · rw [if_pos hlevel, if_pos hlevel]
              rfl
            · rw [if_neg hlevel, if_neg hlevel, byteAt_of_drop h₁]
              refine (parseConnectFlagsAt_eq flags (drop_succ_of_drop h₁)).trans ?_
              cases parseConnectFlags flags (hi.toUInt16 <<< 8 ||| lo.toUInt16) tail <;> rfl

theorem readRequestAt_tracks (hpos : pos ≤ buf.length) :
    Tracks buf (-1) (readRequestAt buf pos) (readRequest (buf.drop pos)) := by
  refine (readStrAt_tracks _ hpos).bind fun topic pos hpos ↦ ?_
  dsimp only
  by_cases hend : buf.length ≤ pos
  · rw [if_pos hend, List.drop_eq_nil_iff.mpr hend]
    rfl
  · have hcons := List.drop_eq_getElem_cons (not_le.mp hend)
    rw [if_neg hend, byteAt_of_drop hcons, hcons]
    exact Tracks.guard fun _ ↦ Tracks.ok (not_le.mp hend) _

theorem parseItemsAt_eq {α : Type} [DecidableEq α] {item : ℕ → Read (α × ℕ)}
    {p : Bytes → Option (α × Bytes)}
    (h : ∀ pos ≤ buf.length, Tracks buf (-1) (item pos) (p (buf.drop pos))) (maxTopics : ℕ) :
    parseItemsAt item buf maxTopics = ofOption (-1) ((readU16 buf).bind fun r ↦
      if r.1 = 0 then none
      else (many p maxTopics r.2).bind fun l ↦ if l = [] then none else some (r.1, l)) := by
  refine (checkedU16At_tracks (Nat.zero_le _)).finish fun id pos hpos ↦ ?_
  dsimp only
  by_cases hzero : id = 0
  · rw [if_pos hzero, if_pos hzero]
    rfl
  · rw [if_neg hzero, if_neg hzero, manyAt_eq h maxTopics hpos]
    cases many p maxTopics (buf.drop pos) with
    | none => rfl
    | some l =>
        change (if l = [] then _ else _) = ofOption (-1) (if l = [] then none else _)
        split_ifs <;> rfl

theorem packetParseSubscribeAt_eq (typeFlags : UInt8) (remainingLen : ℕ) (buf : Bytes)
    (maxTopics : ℕ) : packetParseSubscribeAt buf maxTopics =
      ofOption (-1) (packetParseSubscribe ⟨typeFlags, remainingLen, buf⟩ maxTopics) := by
  simp only [packetParseSubscribe, parseSubscribeFrom_eq]
  exact parseItemsAt_eq (fun _ ↦ readRequestAt_tracks) maxTopics

theorem packetParseUnsubscribeAt_eq (typeFlags : UInt8) (remainingLen : ℕ) (buf : Bytes)
    (maxTopics : ℕ) : packetParseUnsubscribeAt buf maxTopics =
      ofOption (-1) (packetParseUnsubscribe ⟨typeFlags, remainingLen, buf⟩ maxTopics) := by
  simp only [packetParseUnsubscribe, parseUnsubscribeFrom_eq]
  exact parseItemsAt_eq (fun _ ↦ readStrAt_tracks MQTT_TOPIC_MAX) maxTopics

end Tracking

/-! ## The parsers -/

/-- Each of the three parsers accepts exactly the encodings of the values within the
limits, of which it returns the value, and reads no byte outside the packet. -/
theorem parsers_exact (buf : Bytes) (maxTopics : ℕ) :
    (∀ conn, packetParseConnectAt buf = .ok conn ↔ buf = conn.layout ∧ conn.WithinLimits) ∧
    (∀ id topics, packetParseSubscribeAt buf maxTopics = .ok (id, topics) ↔
      buf = subscribeLayout id topics ∧ id ≠ 0 ∧
        (∀ e ∈ topics, FitsIn MQTT_TOPIC_MAX e.1 ∧ e.2 ≤ 2) ∧
        1 ≤ topics.length ∧ topics.length ≤ maxTopics) ∧
    (∀ id topics, packetParseUnsubscribeAt buf maxTopics = .ok (id, topics) ↔
      buf = unsubscribeLayout id topics ∧ id ≠ 0 ∧ (∀ s ∈ topics, FitsIn MQTT_TOPIC_MAX s) ∧
        1 ≤ topics.length ∧ topics.length ≤ maxTopics) ∧
    packetParseConnectAt buf ≠ .error .outOfBounds ∧
    packetParseSubscribeAt buf maxTopics ≠ .error .outOfBounds ∧
    packetParseUnsubscribeAt buf maxTopics ≠ .error .outOfBounds := by
  have hconn := packetParseConnectAt_eq 0 0 buf
  refine ⟨fun conn ↦ ?_, fun id topics ↦ ?_, fun id topics ↦ ?_, ?_, ?_, ?_⟩
  · have hok : packetParseConnectAt buf = .ok conn ↔
        packetParseConnect ⟨0, 0, buf⟩ = .ok conn := by
      rw [hconn]
      cases packetParseConnect ⟨0, 0, buf⟩ <;> simp [ofExcept, refuse]
    exact hok.trans packetParseConnect_iff
  · rw [packetParseSubscribeAt_eq 0 0, ofOption_eq_ok]
    exact packetParseSubscribe_iff
  · rw [packetParseUnsubscribeAt_eq 0 0, ofOption_eq_ok]
    exact packetParseUnsubscribe_iff
  · rw [hconn]
    cases packetParseConnect ⟨0, 0, buf⟩ <;> simp [ofExcept, refuse]
  · rw [packetParseSubscribeAt_eq 0 0]
    exact ofOption_ne_outOfBounds _ _
  · rw [packetParseUnsubscribeAt_eq 0 0]
    exact ofOption_ne_outOfBounds _ _

/-- A CONNECT with a will of QoS 3. -/
def reservedWill : MqttConnect :=
  ⟨[0x63], true, 60, true, [0x77], [0x78], 3, 0, false, false, [], []⟩

/-- MQTT reserves this QoS, but only `handle_connect` refuses it. -/
theorem reserved_will_qos_parsed : ∃ (buf : Bytes) (conn : MqttConnect),
    buf.length ≤ MQTT_MAX_PACKET_SIZE ∧ packetParseConnectAt buf = .ok conn ∧
      conn.hasWill = true ∧ conn.willQos = 3 :=
  ⟨reservedWill.layout, reservedWill, by decide +kernel, by decide +kernel, rfl, rfl⟩

end MqttBroker
