import MqttBroker.Http

/-!
# The publish form of the dashboard

`pub` of the page that `http.c` serves, and what `handle_publish_api` makes of
the request it sends. The page escapes the two strings; `json_str` copies them
up to the next quote and takes no escape back.
-/

namespace MqttBroker

namespace Json

def backslash : UInt8 := 0x5C
def comma : UInt8 := 0x2C

def hexDigit (n : UInt8) : UInt8 := if n < 10 then 0x30 + n else 0x57 + n

/-- A byte of a string in the text of `JSON.stringify`. -/
def escapeByte (c : UInt8) : CStr :=
  if c = quote then [backslash, quote]
  else if c = backslash then [backslash, backslash]
  else if c = 0x08 then [backslash, 0x62]
  else if c = 0x09 then [backslash, 0x74]
  else if c = 0x0A then [backslash, 0x6E]
  else if c = 0x0C then [backslash, 0x66]
  else if c = 0x0D then [backslash, 0x72]
  else if c < 0x20 then [backslash, 0x75, 0x30, 0x30, hexDigit (c >>> 4), hexDigit (c &&& 0xF)]
  else [c]

def escape (s : CStr) : CStr := s.flatMap escapeByte

/-- `JSON.stringify` of a string. -/
def stringifyStr (s : CStr) : CStr := quote :: (escape s ++ [quote])

/-- A member of an object, its key and its value. -/
def stringifyMember (key value : CStr) : CStr := quote :: (key ++ quote :: colon :: value)

/-- The bytes that stand for themselves in a string. -/
def Plain (c : UInt8) : Prop := 0x20 ≤ c ∧ c ≠ quote ∧ c ≠ backslash

instance : DecidablePred Plain := fun _ ↦ inferInstanceAs (Decidable (_ ∧ _))

end Json

/-- The body `pub` posts: `JSON.stringify({topic, payload, qos})`. -/
def dashboardPub (topic payload : CStr) (qos : UInt8) : CStr :=
  0x7B :: (Json.stringifyMember Json.topic (Json.stringifyStr topic) ++
    Json.comma :: (Json.stringifyMember Json.payload (Json.stringifyStr payload) ++
      Json.comma :: (Json.stringifyMember Json.qos [0x30 + qos] ++ [0x7D])))

namespace Json

theorem escapeByte_plain {c : UInt8} (h : Plain c) : escapeByte c = [c] := by
  revert c
  decide +kernel

theorem escapeByte_backslash : escapeByte backslash = [backslash, backslash] := by decide

theorem nul_not_mem_escapeByte (c : UInt8) : 0 ∉ escapeByte c := by
  revert c
  decide +kernel

theorem quote_not_mem_escapeByte {c : UInt8} (h : c ≠ quote) : quote ∉ escapeByte c := by
  revert c
  decide +kernel

theorem head_escapeByte_of_not_plain {c : UInt8} (h : ¬ Plain c) :
    (escapeByte c).head? = some backslash := by
  revert c
  decide +kernel

/-- Every byte that is escaped begins with a backslash. -/
theorem escapeByte_of_not_plain {c : UInt8} (h : ¬ Plain c) :
    ∃ e, escapeByte c = backslash :: e :=
  List.head?_eq_some_iff.mp (head_escapeByte_of_not_plain h)

@[simp] theorem escape_nil : escape [] = [] := rfl

@[simp] theorem escape_cons (c : UInt8) (s : CStr) : escape (c :: s) = escapeByte c ++ escape s :=
  List.flatMap_cons

theorem nul_not_mem_escape (s : CStr) : 0 ∉ escape s := by
  intro h
  obtain ⟨c, -, hc⟩ := List.mem_flatMap.mp h
  exact nul_not_mem_escapeByte c hc

/-- The characters of a key: none that ends a string, escapes or separates. -/
def IsKey (key : CStr) : Prop :=
  ∀ c ∈ key, c ≠ quote ∧ c ≠ backslash ∧ c ≠ comma ∧ c ≠ colon

instance (key : CStr) : Decidable (IsKey key) := List.decidableBAll _ _

theorem isKey_topic : IsKey topic := by decide
theorem isKey_payload : IsKey payload := by decide
theorem isKey_qos : IsKey qos := by decide

/-- A string value does not begin with a key and its colon: what looks like a
key inside it has its quotes escaped. -/
theorem not_startsWith_key {key : CStr} (hkey : IsKey key) (s r : CStr) :
    ¬ key ++ [quote, colon] <+: escape s ++ quote :: comma :: r := by
  induction s generalizing key with
  | nil =>
      intro h
      cases key with
      | nil => simp [quote, colon, comma] at h
      | cons k key =>
          obtain ⟨hk, -⟩ := List.cons_prefix_cons.mp h
          exact (hkey k List.mem_cons_self).1 hk
  | cons c s ih =>
      intro h
      by_cases hc : Plain c
      · rw [escape_cons, escapeByte_plain hc, List.singleton_append, List.cons_append] at h
        cases key with
        | nil => exact hc.2.1 (List.cons_prefix_cons.mp h).1.symm
        | cons k key =>
            exact ih (fun x hx ↦ hkey x (List.mem_cons_of_mem k hx)) (List.cons_prefix_cons.mp h).2
      · obtain ⟨e, he⟩ := escapeByte_of_not_plain hc
        rw [escape_cons, he, List.cons_append, List.cons_append] at h
        cases key with
        | nil => exact absurd (List.cons_prefix_cons.mp h).1 (by decide)
        | cons k key =>
            exact (hkey k List.mem_cons_self).2.1 (List.cons_prefix_cons.mp h).1

end Json

/-! ## Finding the values -/

theorem strstr_cons_of_not {needle s : CStr} {c : UInt8} (h : ¬ needle <+: c :: s) :
    strstr needle (c :: s) = strstr needle s := by
  rw [strstr, if_neg]
  exact fun hp ↦ h (List.isPrefixOf_iff_prefix.mp hp)

theorem strstr_of_startsWith {needle s : CStr} (h : needle <+: s) (hne : needle ≠ []) :
    strstr needle s = some s := by
  cases s with
  | nil => exact absurd (List.prefix_nil.mp h) hne
  | cons c s => rw [strstr, if_pos (List.isPrefixOf_iff_prefix.mpr h)]

/-- What begins with a quote is not found where there is none. -/
theorem strstr_append_of_quote {needle a s : CStr} (h : Json.quote ∉ a) :
    strstr (Json.quote :: needle) (a ++ s) = strstr (Json.quote :: needle) s := by
  induction a with
  | nil => rfl
  | cons c a ih =>
      obtain ⟨hc, ha⟩ := not_or.mp (fun hm ↦ h (List.mem_cons.mpr hm))
      rw [List.cons_append, strstr_cons_of_not, ih ha]
      exact fun hp ↦ hc (List.cons_prefix_cons.mp hp).1

namespace Json

/-- `search` of `json_find_value` -/
def search (key : CStr) : CStr := quote :: (key ++ [quote, colon])

theorem strstr_search_cons {key s : CStr} {c : UInt8} (h : c ≠ quote) :
    strstr (search key) (c :: s) = strstr (search key) s :=
  strstr_append_of_quote (a := [c]) (by simpa using h.symm)

/-- No key is found inside of a string value. -/
theorem strstr_escape {key : CStr} (hkey : IsKey key) (s r : CStr) :
    strstr (search key) (escape s ++ quote :: comma :: r) = strstr (search key) (comma :: r) := by
  induction s with
  | nil =>
      rw [escape_nil, List.nil_append, strstr_cons_of_not]
      intro h
      obtain ⟨-, h⟩ := List.cons_prefix_cons.mp h
      cases key with
      | nil => exact absurd (List.cons_prefix_cons.mp h).1 (by decide)
      | cons k key => exact (hkey k List.mem_cons_self).2.2.1 (List.cons_prefix_cons.mp h).1
  | cons c s ih =>
      rw [escape_cons, List.append_assoc]
      by_cases hc : c = quote
      · subst hc
        have hback : strstr (search key) (escapeByte quote ++ (escape s ++ quote :: comma :: r)) =
            strstr (search key) (quote :: (escape s ++ quote :: comma :: r)) :=
          strstr_append_of_quote (a := [backslash]) (by decide)
        rw [hback, strstr_cons_of_not, ih]
        exact fun h ↦ not_startsWith_key hkey s r (List.cons_prefix_cons.mp h).2
      · rw [search, strstr_append_of_quote (quote_not_mem_escapeByte hc)]
        exact ih

/-- Two keys that begin one text are the same. -/
theorem key_unique {key other : CStr} (hkey : IsKey key) (hother : IsKey other)
    {x y : CStr} (h : key ++ quote :: x <+: other ++ quote :: y) : key = other := by
  induction key generalizing other with
  | nil =>
      cases other with
      | nil => rfl
      | cons o other =>
          exact absurd (List.cons_prefix_cons.mp h).1.symm (hother o List.mem_cons_self).1
  | cons k key ih =>
      cases other with
      | nil => exact absurd (List.cons_prefix_cons.mp h).1 (hkey k List.mem_cons_self).1
      | cons o other =>
          obtain ⟨rfl, htail⟩ := List.cons_prefix_cons.mp h
          rw [ih (fun x hx ↦ hkey x (List.mem_cons_of_mem k hx))
            (fun x hx ↦ hother x (List.mem_cons_of_mem k hx)) htail]

/-- A member with a string value is passed over when another key is looked for. -/
theorem strstr_member {key other : CStr} (hkey : IsKey key) (hother : IsKey other)
    (hne : key ≠ other) (s r : CStr) :
    strstr (search key) (stringifyMember other (stringifyStr s) ++ comma :: r) =
      strstr (search key) (comma :: r) := by
  have hname : ∀ x, ¬ search key <+: quote :: (other ++ quote :: colon :: x) := fun x h ↦
    hne (key_unique hkey hother (List.cons_prefix_cons.mp h).2)
  have hcolon : ∀ x, ¬ search key <+: quote :: colon :: x := by
    intro x h
    obtain ⟨-, h⟩ := List.cons_prefix_cons.mp h
    cases key with
    | nil => exact absurd (List.cons_prefix_cons.mp h).1 (by decide)
    | cons k key => exact (hkey k List.mem_cons_self).2.2.2 (List.cons_prefix_cons.mp h).1
  have hvalue : ¬ search key <+: quote :: (escape s ++ quote :: comma :: r) := fun h ↦
    not_startsWith_key hkey s r (List.cons_prefix_cons.mp h).2
  have htext : stringifyMember other (stringifyStr s) ++ comma :: r =
      quote :: (other ++ quote :: colon :: quote :: (escape s ++ quote :: comma :: r)) := by
    simp [stringifyMember, stringifyStr]
  let value := escape s ++ quote :: comma :: r
  rw [htext]
  calc strstr (search key) (quote :: (other ++ quote :: colon :: quote :: value))
      = strstr (search key) (other ++ quote :: colon :: quote :: value) :=
        strstr_cons_of_not (hname _)
    _ = strstr (search key) (quote :: colon :: quote :: value) :=
        strstr_append_of_quote fun h ↦ (hother quote h).1 rfl
    _ = strstr (search key) (colon :: quote :: value) := strstr_cons_of_not (hcolon _)
    _ = strstr (search key) (quote :: value) := strstr_search_cons (by decide)
    _ = strstr (search key) value := strstr_cons_of_not hvalue
    _ = strstr (search key) (comma :: r) := strstr_escape hkey s r

/-- The member is found where the text comes to it. -/
theorem strstr_member_self (key value r : CStr) :
    strstr (search key) (stringifyMember key value ++ r) =
      some (stringifyMember key value ++ r) := by
  apply strstr_of_startsWith
  · refine ⟨value ++ r, ?_⟩
    simp [search, stringifyMember]
  · exact List.cons_ne_nil _ _

theorem drop_search (key value r : CStr) :
    (stringifyMember key value ++ r).drop (search key).length = value ++ r := by
  have h : stringifyMember key value ++ r = search key ++ (value ++ r) := by
    simp [search, stringifyMember]
  rw [h, List.drop_left]

/-- A value is found where the search for its key arrives at its member. -/
theorem jsonFindValue_eq {json key value r : CStr}
    (h : strstr (search key) json = strstr (search key) (stringifyMember key value ++ r))
    (hspace : (value ++ r).head? ≠ some space) :
    jsonFindValue json key = some (value ++ r) := by
  rw [jsonFindValue, ← search, h, strstr_member_self, Option.map_some, drop_search]
  cases hv : value ++ r with
  | nil => rfl
  | cons c s =>
      rw [hv] at hspace
      have hc : c ≠ space := fun he ↦ hspace (congrArg some he)
      rw [List.dropWhile_cons_of_neg (by simpa using hc)]

/-! ## What is copied of a string -/

/-- The text of a string as far as `json_str` reads it. -/
def upToQuote (s : CStr) : CStr := (escape s).takeWhile (· ≠ quote)

/-- What `json_str` copies of a string, up to `n` bytes. -/
def keep (n : ℕ) (s : CStr) : CStr := (upToQuote s).take n

theorem takeWhile_quote (s r : CStr) :
    (s ++ quote :: r).takeWhile (· ≠ quote) = s.takeWhile (· ≠ quote) := by
  induction s with
  | nil => rfl
  | cons c s ih =>
      rw [List.cons_append, List.takeWhile_cons, List.takeWhile_cons, ih]

theorem jsonStr_eq {json key s r : CStr} (cap : ℕ)
    (h : strstr (search key) json =
      strstr (search key) (stringifyMember key (stringifyStr s) ++ r)) :
    jsonStr json key cap = some (keep (cap - 1) s) := by
  have htext : stringifyStr s ++ r = quote :: (escape s ++ quote :: r) := by
    simp [stringifyStr]
  have hfind : jsonFindValue json key = some (quote :: (escape s ++ quote :: r)) := by
    rw [jsonFindValue_eq h (by rw [htext]; simp [quote, space]), htext]
  rw [jsonStr, hfind]
  simp only [if_pos, takeWhile_quote, keep, upToQuote]

theorem upToQuote_cons_of_ne {c : UInt8} (h : c ≠ quote) (s : CStr) :
    upToQuote (c :: s) = escapeByte c ++ upToQuote s := by
  rw [upToQuote, escape_cons, List.takeWhile_append_of_pos, ← upToQuote]
  intro x hx
  have hne : x ≠ quote := fun he ↦ quote_not_mem_escapeByte h (he ▸ hx)
  simpa using hne

theorem upToQuote_plain_append {u : CStr} (h : ∀ c ∈ u, Plain c) (s : CStr) :
    upToQuote (u ++ s) = u ++ upToQuote s := by
  induction u with
  | nil => rfl
  | cons c u ih =>
      have hc := h c List.mem_cons_self
      rw [List.cons_append, upToQuote_cons_of_ne hc.2.1, escapeByte_plain hc,
        ih fun x hx ↦ h x (List.mem_cons_of_mem c hx)]
      rfl

theorem upToQuote_backslashes (k : ℕ) :
    upToQuote (List.replicate k backslash) = List.replicate (2 * k) backslash := by
  induction k with
  | zero => rfl
  | succ k ih =>
      rw [List.replicate_succ, upToQuote_cons_of_ne (by decide), ih, escapeByte_backslash]
      rfl

theorem head_upToQuote_of_not_plain {c : UInt8} (h : ¬ Plain c) (s : CStr) :
    ∃ e, upToQuote (c :: s) = backslash :: e := by
  obtain ⟨e, he⟩ := escapeByte_of_not_plain h
  refine ⟨(e ++ escape s).takeWhile (· ≠ quote), ?_⟩
  rw [upToQuote, escape_cons, he, List.cons_append, List.takeWhile_cons_of_pos (by decide)]

/-- The strings of at most `n` bytes that `json_str` copies as they are: every
byte stands for itself, or the buffer is full where the rest, backslashes only,
would be written twice. -/
def Kept (n : ℕ) (s : CStr) : Prop :=
  ∃ u k, s = u ++ List.replicate k backslash ∧ (∀ c ∈ u, Plain c) ∧ (k = 0 ∨ s.length = n)

theorem Kept.of_plain (n : ℕ) {s : CStr} (h : ∀ c ∈ s, Plain c) : Kept n s :=
  ⟨s, 0, (List.append_nil s).symm, h, Or.inl rfl⟩

/-- A backslash ahead of its place never catches up: only backslashes may
follow, until the buffer is full. -/
theorem backslashes_of_ahead {m j : ℕ} {s : CStr} (hlen : s.length ≤ m)
    (h : (List.replicate (j + 1) backslash ++ upToQuote s).take m = s) :
    s = List.replicate m backslash := by
  induction s generalizing m j with
  | nil =>
      cases m with
      | zero => rfl
      | succ m => simp [List.replicate_succ] at h
  | cons c s ih =>
      obtain ⟨m, rfl⟩ := Nat.exists_eq_succ_of_ne_zero (Nat.ne_zero_of_lt hlen)
      rw [List.replicate_succ, List.cons_append, List.take_succ_cons] at h
      obtain ⟨hc, htail⟩ := List.cons_eq_cons.mp h
      subst hc
      have hahead : List.replicate j backslash ++ upToQuote (backslash :: s) =
          List.replicate (j + 2) backslash ++ upToQuote s := by
        rw [upToQuote_cons_of_ne (by decide), escapeByte_backslash, List.replicate_add]
        simp
      rw [hahead] at htail
      rw [ih (Nat.le_of_succ_le_succ hlen) htail, List.replicate_succ]

theorem Kept.of_keep {n : ℕ} {s : CStr} (hlen : s.length ≤ n) (h : keep n s = s) : Kept n s := by
  induction s generalizing n with
  | nil => exact ⟨[], 0, rfl, fun c hc ↦ (nomatch hc), Or.inl rfl⟩
  | cons c s ih =>
      obtain ⟨n, rfl⟩ := Nat.exists_eq_succ_of_ne_zero (Nat.ne_zero_of_lt hlen)
      by_cases hc : Plain c
      · have htail : keep n s = s := by
          change (upToQuote (c :: s)).take (n + 1) = c :: s at h
          rw [upToQuote_cons_of_ne hc.2.1, escapeByte_plain hc] at h
          exact (List.cons_eq_cons.mp h).2
        obtain ⟨u, k, hs, hu, hk⟩ := ih (Nat.le_of_succ_le_succ hlen) htail
        refine ⟨c :: u, k, by rw [hs, List.cons_append], ?_, hk.imp_right ?_⟩
        · intro x hx
          rcases List.mem_cons.mp hx with rfl | hx
          · exact hc
          · exact hu x hx
        · intro hfull
          rw [List.length_cons, hfull]
      · -- the copy begins with a backslash, and so the string does
        obtain ⟨e, he⟩ := head_upToQuote_of_not_plain hc s
        change (upToQuote (c :: s)).take (n + 1) = c :: s at h
        have hback : c = backslash := by
          rw [he] at h
          exact (List.cons_eq_cons.mp h).1.symm
        subst hback
        rw [upToQuote_cons_of_ne (by decide), escapeByte_backslash] at h
        have htail : (List.replicate 1 backslash ++ upToQuote s).take n = s :=
          (List.cons_eq_cons.mp h).2
        have hall := backslashes_of_ahead (j := 0) (Nat.le_of_succ_le_succ hlen) htail
        refine ⟨[], n + 1, by rw [hall]; rfl, fun c hc ↦ (nomatch hc), Or.inr ?_⟩
        rw [hall, List.length_cons, List.length_replicate]

theorem Kept.keep {n : ℕ} {s : CStr} (hlen : s.length ≤ n) (h : Kept n s) : keep n s = s := by
  obtain ⟨u, k, hs, hu, hk⟩ := h
  have hcopy : upToQuote s = s ++ List.replicate k backslash := by
    rw [hs, upToQuote_plain_append hu, upToQuote_backslashes, two_mul, List.replicate_add,
      List.append_assoc]
  change (upToQuote s).take n = s
  rw [hcopy]
  rcases hk with rfl | hfull
  · rw [List.replicate_zero, List.append_nil, List.take_of_length_le hlen]
  · rw [← hfull, List.take_left]

theorem keep_eq_self_iff {n : ℕ} {s : CStr} (hlen : s.length ≤ n) : keep n s = s ↔ Kept n s :=
  ⟨Kept.of_keep hlen, Kept.keep hlen⟩

theorem keep_ne_nil {n : ℕ} {s : CStr} (hn : 0 < n) (h : s ≠ []) : Json.keep n s ≠ [] := by
  obtain ⟨c, s, rfl⟩ := List.exists_cons_of_ne_nil h
  obtain ⟨n, rfl⟩ := Nat.exists_eq_succ_of_ne_zero hn.ne'
  change (upToQuote (c :: s)).take (n + 1) ≠ []
  by_cases hc : Plain c
  · rw [upToQuote_cons_of_ne hc.2.1, escapeByte_plain hc]
    exact List.cons_ne_nil _ _
  · obtain ⟨e, he⟩ := head_upToQuote_of_not_plain hc s
    rw [he]
    exact List.cons_ne_nil _ _

theorem length_keep_le (n : ℕ) (s : CStr) : (Json.keep n s).length ≤ n := List.length_take_le _ _

end Json

/-! ## The request -/

/-- The body has no byte that ends a C string. -/
theorem cstr_dashboardPub (t p : CStr) {q : UInt8} (hq : q ≤ 2) :
    cstr (dashboardPub t p q) = dashboardPub t p q := by
  have ht := Json.nul_not_mem_escape t
  have hp := Json.nul_not_mem_escape p
  have hqos : 0x30 + q ≠ 0 := by
    revert q
    decide +kernel
  apply cstr_eq_self
  simp [dashboardPub, Json.stringifyMember, Json.stringifyStr, Json.quote, Json.colon, Json.comma,
    Json.topic, Json.payload, Json.qos, ht, hp, hqos.symm]

namespace Json

theorem strstr_topic (t p : CStr) (q : UInt8) :
    ∃ r, strstr (search topic) (dashboardPub t p q) =
      strstr (search topic) (stringifyMember topic (stringifyStr t) ++ r) :=
  ⟨_, strstr_search_cons (by decide)⟩

theorem strstr_payload (t p : CStr) (q : UInt8) :
    ∃ r, strstr (search payload) (dashboardPub t p q) =
      strstr (search payload) (stringifyMember payload (stringifyStr p) ++ r) := by
  refine ⟨comma :: (stringifyMember qos [0x30 + q] ++ [0x7D]), ?_⟩
  rw [dashboardPub, strstr_search_cons (by decide),
    strstr_member isKey_payload isKey_topic (by decide), strstr_search_cons (by decide)]

theorem strstr_qos (t p : CStr) (q : UInt8) :
    strstr (search qos) (dashboardPub t p q) =
      strstr (search qos) (stringifyMember qos [0x30 + q] ++ [0x7D]) := by
  rw [dashboardPub, strstr_search_cons (by decide),
    strstr_member isKey_qos isKey_topic (by decide), strstr_search_cons (by decide),
    strstr_member isKey_qos isKey_payload (by decide), strstr_search_cons (by decide)]

theorem jsonInt_qos (t p : CStr) {q : UInt8} (hq : q ≤ 2) :
    jsonInt (dashboardPub t p q) qos = q.toNat := by
  have hdigit : atoi ([0x30 + q] ++ [0x7D]) = q.toNat ∧
      ([0x30 + q] ++ [0x7D]).head? ≠ some space := by
    revert q
    decide +kernel
  rw [jsonInt, jsonFindValue_eq (strstr_qos t p q) hdigit.2]
  exact hdigit.1

end Json

/-- What the request of the form is published as. -/
theorem handlePublishApi_dashboardPub {t : CStr} (ht : t ≠ []) (p : CStr) {q : UInt8}
    (hq : q ≤ 2) :
    handlePublishApi (dashboardPub t p q) =
      some ⟨Json.keep (MQTT_TOPIC_MAX - 1) t, Json.keep (MQTT_PAYLOAD_MAX - 1) p, q, 0, 0, 0⟩ := by
  obtain ⟨r, hr⟩ := Json.strstr_topic t p q
  obtain ⟨r', hr'⟩ := Json.strstr_payload t p q
  have hrange : ¬ ((q.toNat : ℤ) < 0 ∨ 2 < (q.toNat : ℤ)) := by
    have hle : q.toNat ≤ 2 := UInt8.le_iff_toNat_le.mp hq
    omega
  have hcut : (Json.keep (MQTT_TOPIC_MAX - 1) t).take (MQTT_TOPIC_MAX - 1) =
      Json.keep (MQTT_TOPIC_MAX - 1) t := List.take_of_length_le (Json.length_keep_le _ t)
  rw [handlePublishApi, Json.jsonStr_eq MQTT_TOPIC_MAX hr]
  dsimp only
  rw [if_neg (Json.keep_ne_nil (by decide) ht), Json.jsonStr_eq MQTT_PAYLOAD_MAX hr',
    Json.jsonInt_qos t p hq, if_neg hrange, hcut, Option.getD_some, Int.toNat_natCast,
    UInt8.ofNat_toNat]

/-- The form publishes what was entered, or nothing, exactly where `json_str`
copies both strings as they are. -/
theorem dashboard_publishes_iff {t p : CStr} {q : UInt8} (ht : t ≠ [])
    (htopic : t.length < MQTT_TOPIC_MAX) (hpayload : p.length < MQTT_PAYLOAD_MAX) (hq : q ≤ 2) :
    (∀ pub, handlePublishApi (cstr (dashboardPub t p q)) = some pub →
        pub.topic = t ∧ pub.payload = p ∧ pub.qos = q) ↔
      Json.Kept (MQTT_TOPIC_MAX - 1) t ∧ Json.Kept (MQTT_PAYLOAD_MAX - 1) p := by
  rw [cstr_dashboardPub t p hq, handlePublishApi_dashboardPub ht p hq,
    ← Json.keep_eq_self_iff (Nat.le_sub_one_of_lt htopic),
    ← Json.keep_eq_self_iff (Nat.le_sub_one_of_lt hpayload)]
  constructor
  · intro h
    obtain ⟨htopic, hpayload, -⟩ := h _ rfl
    exact ⟨htopic, hpayload⟩
  · rintro ⟨htopic, hpayload⟩ pub h
    cases h
    exact ⟨htopic, hpayload, rfl⟩

/-- The form with the topic `home` and the payload `on` publishes them. -/
theorem dashboard_publishes_iff_on :
    (handlePublishApi
        (cstr (dashboardPub [0x68, 0x6F, 0x6D, 0x65] [0x6F, 0x6E] 1))).isSome = true ∧
      ∀ pub, handlePublishApi (cstr (dashboardPub [0x68, 0x6F, 0x6D, 0x65] [0x6F, 0x6E] 1)) =
        some pub → pub.topic = [0x68, 0x6F, 0x6D, 0x65] ∧ pub.payload = [0x6F, 0x6E] ∧
          pub.qos = 1 :=
  ⟨by decide +kernel,
    (dashboard_publishes_iff (by decide) (by decide) (by decide) (by decide)).mpr
      ⟨Json.Kept.of_plain _ (by decide +kernel), Json.Kept.of_plain _ (by decide +kernel)⟩⟩

/-- The payload `{"on":1}` for the topic `home` is published as `{\`. -/
theorem dashboard_payload_cut_at_quote :
    ¬ ∀ pub, handlePublishApi (cstr (dashboardPub [0x68, 0x6F, 0x6D, 0x65]
        [0x7B, 0x22, 0x6F, 0x6E, 0x22, 0x3A, 0x31, 0x7D] 1)) = some pub →
      pub.topic = [0x68, 0x6F, 0x6D, 0x65] ∧
        pub.payload = [0x7B, 0x22, 0x6F, 0x6E, 0x22, 0x3A, 0x31, 0x7D] ∧ pub.qos = 1 := by
  intro h
  have hpayload := (h ⟨[0x68, 0x6F, 0x6D, 0x65], [0x7B, 0x5C], 1, 0, 0, 0⟩
    (by decide +kernel)).2.1
  exact absurd hpayload (by decide)

end MqttBroker
