import MqttBroker.Client.Timeouts
import MqttBroker.Dashboard

/-!
# Requests to the dashboard

`handle_connection` of `http.c` reads a request in whatever pieces the transport
delivers, finds the end of its header and its length with `strstr`, and reads the
rest of the body.  What it does depends on the bytes of the request only.
-/

namespace MqttBroker

open TickReader

namespace Http

/-- `sizeof(req)` -/
def REQ_SIZE : ℕ := 4096

/-- `sizeof(body_buf)` -/
def BODY_SIZE : ℕ := MQTT_PAYLOAD_MAX + 256

def ascii (s : List Char) : CStr := s.map fun c ↦ UInt8.ofNat c.toNat

/-- The empty line that ends a header. -/
def headerEnd : CStr := [0x0D, 0x0A, 0x0D, 0x0A]

def options : CStr := ascii ['O', 'P', 'T', 'I', 'O', 'N', 'S']

/-- `"GET / "` -/
def getPage : CStr := ascii ['G', 'E', 'T', ' ', '/', ' ']

/-- `"GET /\r"` -/
def getPageOnly : CStr := ascii ['G', 'E', 'T', ' ', '/', '\r']

/-- `"GET /api/status"` -/
def getStatus : CStr :=
  ascii ['G', 'E', 'T', ' ', '/', 'a', 'p', 'i', '/', 's', 't', 'a', 't', 'u', 's']

/-- `"POST /api/publish"` -/
def postPublish : CStr :=
  ascii ['P', 'O', 'S', 'T', ' ', '/', 'a', 'p', 'i', '/', 'p', 'u', 'b', 'l', 'i', 's', 'h']

/-- `"Content-Length:"` -/
def contentLengthName : CStr :=
  ascii ['C', 'o', 'n', 't', 'e', 'n', 't', '-', 'L', 'e', 'n', 'g', 't', 'h', ':']

/-- `"content-length:"` -/
def contentLengthLower : CStr :=
  ascii ['c', 'o', 'n', 't', 'e', 'n', 't', '-', 'l', 'e', 'n', 'g', 't', 'h', ':']

/-- The calls of `http_send`. -/
inductive Reply where
  /-- to OPTIONS -/
  | preflight
  | dashboard
  /-- the page of `handle_status` -/
  | status
  | missingTopic
  | published
  | bodyTooLarge
  | truncatedBody
  | notFound
  deriving DecidableEq, Repr

/-- `"{\"ok\":false,\"error\":\"...\"}"` -/
def errorText (s : List Char) : CStr :=
  ascii (['{', '"', 'o', 'k', '"', ':', 'f', 'a', 'l', 's', 'e', ',', '"', 'e', 'r', 'r', 'o', 'r',
    '"', ':', '"'] ++ s ++ ['"', '}'])

/-- The texts of `http_send`, where `page` is that of the dashboard and `state` what
`handle_status` has printed. -/
def Reply.text (page state : CStr) : Reply → CStr
  | .preflight => []
  | .dashboard => page
  | .status => state
  | .missingTopic => errorText ['m', 'i', 's', 's', 'i', 'n', 'g', ' ', 't', 'o', 'p', 'i', 'c']
  | .published => ascii ['{', '"', 'o', 'k', '"', ':', 't', 'r', 'u', 'e', '}']
  | .bodyTooLarge =>
      errorText ['b', 'o', 'd', 'y', ' ', 't', 'o', 'o', ' ', 'l', 'a', 'r', 'g', 'e']
  | .truncatedBody =>
      errorText ['t', 'r', 'u', 'n', 'c', 'a', 't', 'e', 'd', ' ', 'b', 'o', 'd', 'y']
  | .notFound => ascii ['{', '"', 'e', 'r', 'r', 'o', 'r', '"', ':', '"', 'n', 'o', 't', ' ',
      'f', 'o', 'u', 'n', 'd', '"', '}']

/-- The argument `code` of `http_send`. -/
def Reply.code : Reply → ℕ
  | .preflight | .dashboard | .status | .published => 200
  | .missingTopic | .bodyTooLarge | .truncatedBody => 400
  | .notFound => 404

/-- The argument `blen` of `http_send`. -/
def Reply.length (page state : CStr) : Reply → ℕ
  | .preflight => 0
  | .dashboard => page.length
  | .status => state.length
  | .missingTopic => 36
  | .published => 11
  | .bodyTooLarge => 37
  | .truncatedBody => 39
  | .notFound => 21

/-- One reply announces and sends two bytes behind its text. -/
theorem Reply.length_eq_iff (page state : CStr) (r : Reply) :
    r.length page state = (r.text page state).length ↔ r ≠ .truncatedBody := by
  cases r <;> simp [Reply.length, Reply.text, errorText, ascii]

/-- What a request leads to; no reply if the connection ends inside of the header. -/
structure Answer where
  /-- the call of `topic_publish` -/
  publish : Option MqttPublish := none
  reply : Option Reply
  deriving DecidableEq

/-- `handle_publish_api` -/
def publishApi (body : CStr) : Answer :=
  match handlePublishApi body with
  | none => { reply := some .missingTopic }
  | some pub => ⟨some pub, some .published⟩

/-- `recv` with room for `max` bytes; nothing if it fails or the peer has closed. -/
def recvSome (max : ℕ) : Wire → Bytes × Wire
  | [] => ([], [])
  | .timeout :: w => ([], w)
  | .data b bs :: w => ((b :: bs).take max, Wire.pushChunk ((b :: bs).drop max) w)

/-- The loop that reads up to the end of the header, or until `req` is full.  Every
round reads something, so that `REQ_SIZE - 1` rounds are enough. -/
def recvHeader : ℕ → Bytes → Wire → Option (Bytes × Wire)
  | 0, req, w => some (req, w)
  | rounds + 1, req, w =>
      if req.length < REQ_SIZE - 1 then
        let r := recvSome (REQ_SIZE - 1 - req.length) w
        if r.1 = [] then none
        else if (strstr headerEnd (cstr (req ++ r.1))).isSome then some (req ++ r.1, r.2)
        else recvHeader rounds (req ++ r.1) r.2
      else some (req, w)

/-- `clen` -/
def contentLength (req : CStr) : ℤ :=
  match strstr contentLengthName req with
  | some cl => atoi (cl.drop 15)
  | none =>
      match strstr contentLengthLower req with
      | some cl => atoi (cl.drop 15)
      | none => 0

/-- The branch for `POST /api/publish`, with the bytes received so far. -/
def handlePost (req : Bytes) (w : Wire) : Answer :=
  match strstr headerEnd (cstr req) with
  | none => publishApi []
  | some p =>
      let body := (cstr req).length - p.length + 4
      let already := req.length - body
      let remain := contentLength (cstr req) - already
      let copied := (req.drop body).take (min already (BODY_SIZE - 1))
      if 0 < remain then
        if BODY_SIZE ≤ already + remain then { reply := some .bodyTooLarge }
        else
          match recvExact remain.toNat w with
          | (.ok rest, _) => publishApi (cstr (copied ++ rest))
          | (.error _, _) => { reply := some .truncatedBody }
      else publishApi (cstr copied)

/-- `handle_connection` -/
def handleConnection (w : Wire) : Answer :=
  match recvHeader (REQ_SIZE - 1) [] w with
  | none => { reply := none }
  | some (req, w) =>
      let line := cstr req
      if options.isPrefixOf line then { reply := some .preflight }
      else if getPage.isPrefixOf line || getPageOnly.isPrefixOf line then
        { reply := some .dashboard }
      else if getStatus.isPrefixOf line then { reply := some .status }
      else if postPublish.isPrefixOf line then handlePost req w
      else { reply := some .notFound }

/-! ## Searching in what has arrived -/

theorem strstr_starts {needle s p : CStr} (h : strstr needle s = some p) : needle <+: p := by
  induction s with
  | nil =>
      rw [strstr] at h
      split_ifs at h with hneedle
      cases h
      rw [hneedle]
  | cons c s ih =>
      rw [strstr] at h
      split_ifs at h with hhere
      · cases h
        exact List.isPrefixOf_iff_prefix.mp hhere
      · exact ih h

/-- What is found in a part is found in the whole. -/
theorem strstr_append {needle s p : CStr} (h : strstr needle s = some p) (t : CStr) :
    strstr needle (s ++ t) = some (p ++ t) := by
  induction s with
  | nil =>
      rw [strstr] at h
      split_ifs at h with hneedle
      cases h
      subst hneedle
      cases t <;> simp [strstr]
  | cons c s ih =>
      have hle : needle.length ≤ (c :: s).length :=
        (strstr_starts h).length_le.trans (strstr_suffix h).length_le
      rw [strstr] at h
      split_ifs at h with hhere
      · cases h
        have hwhole : needle <+: c :: (s ++ t) :=
          (List.isPrefixOf_iff_prefix.mp hhere).trans (List.prefix_append (c :: s) t)
        rw [List.cons_append, strstr, if_pos (List.isPrefixOf_iff_prefix.mpr hwhole)]
      · rw [List.cons_append, strstr_cons_of_not, ih h]
        intro hstraddle
        apply hhere
        rw [List.isPrefixOf_iff_prefix]
        exact List.prefix_of_prefix_length_le hstraddle (List.prefix_append (c :: s) t) hle

/-- A needle without line feeds is not found across the end of a line. -/
theorem strstr_append_none {needle s t : CStr} (hlf : 0x0A ∉ needle) (hne : needle ≠ [])
    (hs : strstr needle (s ++ [0x0A]) = none) (ht : strstr needle t = none) :
    strstr needle (s ++ [0x0A] ++ t) = none := by
  induction s with
  | nil =>
      rw [List.nil_append, List.singleton_append, strstr_cons_of_not, ht]
      intro hp
      cases needle with
      | nil => exact hne rfl
      | cons c needle =>
          apply hlf
          rw [(List.cons_prefix_cons.mp hp).1]
          exact List.mem_cons_self
  | cons c s ih =>
      rw [List.cons_append, strstr] at hs
      split_ifs at hs with hhere
      rw [List.cons_append, List.cons_append, strstr_cons_of_not, ih hs]
      intro hp
      apply hhere
      rw [List.isPrefixOf_iff_prefix]
      rcases List.prefix_or_prefix_of_prefix hp (List.prefix_append (c :: (s ++ [0x0A])) t) with
        hp | hp
      · exact hp
      · exact absurd (hp.subset (by simp)) hlf

/-- A literal without line feeds is compared with the first line only. -/
theorem isPrefixOf_append {lit head : CStr} (hlf : 0x0A ∉ lit) (hhead : 0x0A ∈ head) (t : CStr) :
    lit.isPrefixOf (head ++ t) = lit.isPrefixOf head := by
  rw [Bool.eq_iff_iff, List.isPrefixOf_iff_prefix, List.isPrefixOf_iff_prefix]
  refine ⟨fun hp ↦ ?_, fun hp ↦ hp.trans (List.prefix_append head t)⟩
  rcases List.prefix_or_prefix_of_prefix hp (List.prefix_append head t) with hp | hp
  · exact hp
  · exact absurd (hp.subset hhead) hlf

theorem takeWhile_append_of_mem {α : Type} {p : α → Bool} {s : List α} {x : α} (hx : x ∈ s)
    (hp : p x = false) (t : List α) : (s ++ t).takeWhile p = s.takeWhile p := by
  induction s with
  | nil => cases hx
  | cons c s ih =>
      rw [List.cons_append, List.takeWhile_cons, List.takeWhile_cons]
      cases hc : p c with
      | false => rfl
      | true =>
          rcases List.mem_cons.mp hx with rfl | hx
          · rw [hc] at hp
            cases hp
          · simp [ih hx]

/-- A number is read up to the end of its line. -/
theorem atoi_append {s : CStr} (hnum : atoi (s ++ [0x0A]) ≠ 0) (t : CStr) :
    atoi (s ++ [0x0A] ++ t) = atoi (s ++ [0x0A]) := by
  induction s with
  | nil => exact absurd (by decide) hnum
  | cons c s ih =>
      cases hc : isSpace c with
      | true =>
          have hskip : ∀ r, atoi (c :: r) = atoi r := by
            intro r
            simp only [atoi, List.dropWhile_cons, hc, if_true]
          rw [List.cons_append, hskip] at hnum
          rw [List.cons_append, List.cons_append, hskip, hskip]
          exact ih hnum
      | false =>
          have hdigits : ∀ r : CStr, 0x0A ∈ r → (r ++ t).takeWhile isDigit = r.takeWhile isDigit :=
            fun r hr ↦ takeWhile_append_of_mem hr (by decide) t
          have hline : (0x0A : UInt8) ∈ s ++ [0x0A] := by simp
          have hnone : ∀ r, (c :: r).dropWhile isSpace = c :: r := by
            intro r
            simp [hc]
          have hfull : (c :: (s ++ [0x0A] ++ t)).takeWhile isDigit =
              (c :: (s ++ [0x0A])).takeWhile isDigit := hdigits _ (List.mem_cons_of_mem c hline)
          simp only [atoi, List.cons_append, hnone, hdigits _ hline, hfull]

/-! ## A request -/

/-- The header of a request: its first empty line is its end. -/
structure IsHeader (head : Bytes) : Prop where
  no_nul : 0 ∉ head
  ends : strstr headerEnd head = some headerEnd
  fits : head.length < REQ_SIZE

/-- The request announces a body that fits, and as much of it comes as `body` has. -/
structure Announces (head body : Bytes) : Prop where
  body_le : (body.length : ℤ) ≤ contentLength head
  fits : contentLength head < BODY_SIZE
  /-- a name in lower case is not looked for if the other is found in the body -/
  name : (strstr contentLengthName head).isSome ∨ strstr contentLengthName (cstr body) = none

/-- What the bytes of a request lead to. -/
def respond (head body : Bytes) : Answer :=
  if options.isPrefixOf head then { reply := some .preflight }
  else if getPage.isPrefixOf head || getPageOnly.isPrefixOf head then { reply := some .dashboard }
  else if getStatus.isPrefixOf head then { reply := some .status }
  else if postPublish.isPrefixOf head then
    if (body.length : ℤ) = contentLength head then publishApi (cstr body)
    else { reply := some .truncatedBody }
  else { reply := some .notFound }

theorem cstr_append {s : CStr} (h : 0 ∉ s) (t : Bytes) : cstr (s ++ t) = s ++ cstr t := by
  rw [cstr, List.takeWhile_append_of_pos, cstr]
  intro c hc
  have hne : c ≠ 0 := fun hc0 ↦ h (hc0 ▸ hc)
  exact decide_eq_true hne

section

variable {head body : Bytes} (h : IsHeader head)

include h

theorem IsHeader.exists_line : ∃ s, head = s ++ [0x0A] := by
  obtain ⟨s, hs⟩ := strstr_suffix h.ends
  exact ⟨s ++ [0x0D, 0x0A, 0x0D], by rw [← hs]; simp [headerEnd]⟩

theorem IsHeader.mem_line : 0x0A ∈ head := by
  obtain ⟨s, rfl⟩ := h.exists_line
  simp

/-- The end is not found before all of the header is there. -/
theorem IsHeader.part {s t : Bytes} (hhead : head = s ++ t) (ht : t ≠ []) :
    strstr headerEnd (cstr s) = none := by
  have hs : 0 ∉ s := fun hmem ↦ h.no_nul (hhead ▸ List.mem_append_left t hmem)
  rw [cstr_eq_self hs]
  cases hfound : strstr headerEnd s with
  | none => rfl
  | some p =>
      have hwhole := strstr_append hfound t
      rw [← hhead, h.ends] at hwhole
      have hlen := congrArg List.length (Option.some.inj hwhole)
      have hle := (strstr_starts hfound).length_le
      have hpos := List.length_pos_of_ne_nil ht
      rw [List.length_append] at hlen
      omega

theorem IsHeader.found (b : Bytes) :
    strstr headerEnd (cstr (head ++ b)) = some (headerEnd ++ cstr b) := by
  rw [cstr_append h.no_nul]
  exact strstr_append h.ends (cstr b)

/-- The length that is found is that of the header, as long as some body is announced. -/
theorem IsHeader.contentLength_append {b : Bytes} (hpos : b ≠ [] → 0 < contentLength head)
    (hname : (strstr contentLengthName head).isSome ∨ strstr contentLengthName (cstr b) = none) :
    contentLength (head ++ cstr b) = contentLength head := by
  rcases eq_or_ne b [] with rfl | hb
  · simp [cstr]
  have hlen := hpos hb
  obtain ⟨s, hs⟩ := h.exists_line
  have hnumber : ∀ p, p <:+ head → atoi (p.drop 15) = contentLength head →
      atoi ((p ++ cstr b).drop 15) = contentLength head := by
    intro p hp hval
    have hsuffix : p.drop 15 <:+ head := (List.drop_suffix 15 p).trans hp
    have hne : p.drop 15 ≠ [] := by
      intro hnil
      rw [hnil] at hval
      exact absurd (hval.symm.trans (by decide : atoi [] = 0)) hlen.ne'
    obtain ⟨init, hinit⟩ : ∃ init, p.drop 15 = init ++ [0x0A] := by
      rw [hs] at hsuffix
      rcases List.suffix_concat_iff.mp hsuffix with hnil | ⟨init, hinit, -⟩
      · exact absurd hnil hne
      · exact ⟨init, hinit⟩
    have hle : 15 ≤ p.length := by
      have hdrop := List.length_pos_of_ne_nil hne
      rw [List.length_drop] at hdrop
      omega
    rw [List.drop_append_of_le_length hle, hinit, atoi_append, ← hinit, hval]
    rw [← hinit, hval]
    exact hlen.ne'
  cases hcap : strstr contentLengthName head with
  | some p =>
      have hval : contentLength head = atoi (p.drop 15) := by simp [contentLength, hcap]
      have hfound : contentLength (head ++ cstr b) = atoi ((p ++ cstr b).drop 15) := by
        simp [contentLength, strstr_append hcap (cstr b)]
      rw [hfound, hnumber p (strstr_suffix hcap) hval.symm]
  | none =>
      have hbody : strstr contentLengthName (cstr b) = none := by
        rcases hname with hsome | hnone
        · rw [hcap] at hsome
          cases hsome
        · exact hnone
      have hcap' : strstr contentLengthName (head ++ cstr b) = none := by
        rw [hs] at hcap ⊢
        exact strstr_append_none (by decide) (by decide) hcap hbody
      cases hlow : strstr contentLengthLower head with
      | none =>
          have hzero : contentLength head = 0 := by simp [contentLength, hcap, hlow]
          omega
      | some p =>
          have hval : contentLength head = atoi (p.drop 15) := by simp [contentLength, hcap, hlow]
          have hfound : contentLength (head ++ cstr b) = atoi ((p ++ cstr b).drop 15) := by
            simp [contentLength, hcap', strstr_append hlow (cstr b)]
          rw [hfound, hnumber p (strstr_suffix hlow) hval.symm]

end

/-! ## Receiving it -/

theorem recvSome_ticks {w : Wire} {s : Bytes} (hw : w.ticks = s.map some) (hs : s ≠ []) {max : ℕ}
    (hmax : 0 < max) : ∃ b t w', recvSome max w = (b, w') ∧ b ≠ [] ∧ s = b ++ t ∧
      w'.ticks = t.map some := by
  cases w with
  | nil => exact absurd (List.map_eq_nil_iff.mp hw.symm) hs
  | cons a w =>
      cases a with
      | timeout =>
          cases s with
          | nil => exact absurd rfl hs
          | cons c s => cases hw
      | data c cs =>
          have hticks : s.map some = (c :: cs).map some ++ Wire.ticks w := hw.symm
          obtain ⟨s₁, t, rfl, hs₁, ht⟩ := List.map_eq_append_iff.mp hticks
          obtain rfl : s₁ = c :: cs := List.map_injective_iff.mpr (Option.some_injective _) hs₁
          refine ⟨(c :: cs).take max, (c :: cs).drop max ++ t, _, rfl, ?_, ?_, ?_⟩
          · simp [hmax.ne']
          · rw [← List.append_assoc, List.take_append_drop]
          · rw [Wire.ticks_pushChunk, List.map_append, ht]

theorem exists_cstr_append (b t : Bytes) : ∃ r, cstr (b ++ t) = cstr b ++ r := by
  unfold cstr
  rw [List.takeWhile_append]
  split_ifs with hall
  · refine ⟨t.takeWhile (· ≠ 0), ?_⟩
    rw [(List.takeWhile_prefix _).eq_of_length hall]
  · exact ⟨[], by simp⟩

section

variable {head body : Bytes} (h : IsHeader head)

include h

/-- The loop ends with the header and the part of the body that came with it. -/
theorem IsHeader.recvHeader {rounds : ℕ} {req s : Bytes} {w : Wire} (hreq : req ++ s = head ++ body)
    (hlt : req.length < head.length) (hw : w.ticks = s.map some)
    (hrounds : REQ_SIZE - 1 - req.length ≤ rounds) :
    ∃ b t w', recvHeader rounds req w = some (head ++ b, w') ∧ body = b ++ t ∧
      w'.ticks = t.map some := by
  have hfits := h.fits
  induction rounds generalizing req s w with
  | zero => omega
  | succ rounds ih =>
      have hs : s ≠ [] := by
        rintro rfl
        have hlen := congrArg List.length hreq
        simp only [List.length_append, List.length_nil] at hlen
        omega
      have hroom : 0 < REQ_SIZE - 1 - req.length := by omega
      obtain ⟨b, t, w', hrecv, hb, rfl, hw'⟩ := recvSome_ticks hw hs hroom
      have hpos := List.length_pos_of_ne_nil hb
      rw [Http.recvHeader, if_pos (by omega), hrecv]
      dsimp only
      rw [if_neg hb]
      rw [← List.append_assoc] at hreq
      by_cases hle : (req ++ b).length < head.length
      · obtain ⟨rest, hhead, -⟩ | ⟨rest, hhead, -⟩ := List.append_eq_append_iff.mp hreq
        · have hrest : rest ≠ [] := by
            rintro rfl
            rw [List.append_nil] at hhead
            rw [hhead] at hle
            exact lt_irrefl _ hle
          rw [h.part hhead hrest, Option.isSome_none, if_neg Bool.false_ne_true]
          apply ih hreq hle hw'
          rw [List.length_append]
          omega
        · rw [hhead, List.length_append] at hle
          omega
      · obtain ⟨rest, hhead, hrest⟩ | ⟨rest, hhead, hbody⟩ := List.append_eq_append_iff.mp hreq
        · obtain rfl : rest = [] := by
            have hlen := congrArg List.length hhead
            rw [List.length_append] at hlen
            exact List.length_eq_zero_iff.mp (by omega)
          rw [List.append_nil] at hhead
          have hfound := h.found []
          rw [List.append_nil, hhead] at hfound
          rw [hfound, Option.isSome_some, if_pos rfl]
          exact ⟨[], t, w', by rw [hhead, List.append_nil], hrest.symm, hw'⟩
        · rw [hhead, h.found rest, Option.isSome_some, if_pos rfl]
          exact ⟨rest, t, w', rfl, hbody, hw'⟩

/-- The body is published when all of it has come. -/
theorem IsHeader.handlePost (hbody : Announces head body) {b t : Bytes} (hsplit : body = b ++ t)
    {w : Wire} (hw : w.ticks = t.map some) : handlePost (head ++ b) w =
      if (body.length : ℤ) = contentLength head then publishApi (cstr body)
      else { reply := some .truncatedBody } := by
  subst hsplit
  obtain ⟨hle, hfits, hname⟩ := hbody
  rw [List.length_append] at hle
  have hname' : (strstr contentLengthName head).isSome ∨
      strstr contentLengthName (cstr b) = none := by
    refine hname.imp_right fun hnone ↦ ?_
    obtain ⟨r, hr⟩ := exists_cstr_append b t
    cases hfound : strstr contentLengthName (cstr b) with
    | none => rfl
    | some p =>
        rw [hr, strstr_append hfound] at hnone
        cases hnone
  have hlen : contentLength (cstr (head ++ b)) = contentLength head := by
    rw [cstr_append h.no_nul]
    apply h.contentLength_append _ hname'
    intro hb
    have hpos := List.length_pos_of_ne_nil hb
    omega
  have hstart : (cstr (head ++ b)).length - (headerEnd ++ cstr b).length + 4 = head.length := by
    have hend : headerEnd.length ≤ head.length := (strstr_suffix h.ends).length_le
    rw [cstr_append h.no_nul, List.length_append, List.length_append]
    simp only [headerEnd, List.length_cons, List.length_nil] at hend ⊢
    omega
  have halready : (head ++ b).length - head.length = b.length := by simp
  have hcopied : ((head ++ b).drop head.length).take (min b.length (BODY_SIZE - 1)) = b := by
    rw [List.drop_left, List.take_of_length_le]
    omega
  unfold Http.handlePost
  rw [h.found b]
  dsimp only
  rw [hstart, hlen, halready, hcopied]
  by_cases hremain : 0 < contentLength head - b.length
  · have hroom : ¬ (BODY_SIZE : ℤ) ≤ b.length + (contentLength head - b.length) := by omega
    rw [if_pos hremain, if_neg hroom]
    have hsim := recvExact_simulates (contentLength head - b.length).toNat w
    rw [hw] at hsim
    by_cases hall : ((b ++ t).length : ℤ) = contentLength head
    · have hcount : (contentLength head - b.length).toNat = t.length := by
        rw [List.length_append] at hall
        omega
      have hread := takeExact_append (ε := HeaderError) t []
      rw [List.append_nil, ← hcount, hsim] at hread
      rw [if_pos hall]
      rcases hr : recvExact (contentLength head - b.length).toNat w with ⟨r, w'⟩
      rw [hr] at hread
      obtain rfl : r = .ok t := congrArg Prod.fst hread
      rfl
    · have hcount : t.length < (contentLength head - b.length).toNat := by
        rw [List.length_append] at hall
        omega
      have hread := (waits_takeExact (ε := HeaderError) hcount).closed
      rw [hsim] at hread
      rw [if_neg hall]
      rcases hr : recvExact (contentLength head - b.length).toNat w with ⟨r, w'⟩
      rw [hr] at hread
      obtain rfl : r = .error .closed := congrArg Prod.fst hread
      rfl
  · obtain rfl : t = [] := List.length_eq_zero_iff.mp (by omega)
    rw [if_neg hremain, List.append_nil, if_pos (by omega)]

/-- However its bytes arrive, a request has the same effect: a body that has come
completely is published as it is, and one that has not is not published. -/
theorem IsHeader.request_respond (hbody : postPublish.isPrefixOf head → Announces head body)
    {w : Wire} (hw : w.ticks = (head ++ body).map some) :
    handleConnection w = respond head body := by
  have hpos : ([] : Bytes).length < head.length := by
    have hend : headerEnd.length ≤ head.length := (strstr_suffix h.ends).length_le
    exact lt_of_lt_of_le (by decide) hend
  obtain ⟨b, t, w', hrecv, hsplit, hw'⟩ :=
    h.recvHeader (List.nil_append _) hpos hw (Nat.sub_le (REQ_SIZE - 1) 0)
  have hline : ∀ lit : CStr, 0x0A ∉ lit →
      lit.isPrefixOf (cstr (head ++ b)) = lit.isPrefixOf head := by
    intro lit hlit
    rw [cstr_append h.no_nul]
    exact isPrefixOf_append hlit h.mem_line _
  unfold Http.handleConnection respond
  rw [hrecv]
  dsimp only
  rw [hline options (by decide), hline getPage (by decide), hline getPageOnly (by decide),
    hline getStatus (by decide), hline postPublish (by decide)]
  split_ifs with hopt hpage hstatus hpost hall
  · rfl
  · rfl
  · rfl
  · rw [h.handlePost (hbody hpost) hsplit hw', if_pos hall]
  · rw [h.handlePost (hbody hpost) hsplit hw', if_neg hall]
  · rfl

end

/-! ## A request of the dashboard -/

/-- The form publishes what was entered, however its request arrives, where `json_str`
copies both strings as they are. -/
theorem IsHeader.dashboard {head t p : CStr} {q : UInt8} (h : IsHeader head)
    (hpost : postPublish <+: head) (ht : t ≠ []) (htopic : t.length < MQTT_TOPIC_MAX)
    (hpayload : p.length < MQTT_PAYLOAD_MAX) (hq : q ≤ 2)
    (hkept : Json.Kept (MQTT_TOPIC_MAX - 1) t ∧ Json.Kept (MQTT_PAYLOAD_MAX - 1) p)
    (hlen : contentLength head = (dashboardPub t p q).length)
    (hfits : (dashboardPub t p q).length < BODY_SIZE)
    (hname : (strstr contentLengthName head).isSome)
    {w : Wire} (hw : w.ticks = (head ++ dashboardPub t p q).map some) :
    Http.handleConnection w = ⟨some ⟨t, p, q, 0, 0, 0⟩, some .published⟩ := by
  have hann : Announces head (dashboardPub t p q) := by
    refine ⟨hlen.ge, ?_, Or.inl hname⟩
    rw [hlen]
    exact_mod_cast hfits
  have hkeep : Json.keep (MQTT_TOPIC_MAX - 1) t = t := hkept.1.keep (Nat.le_sub_one_of_lt htopic)
  have hkeep' : Json.keep (MQTT_PAYLOAD_MAX - 1) p = p :=
    hkept.2.keep (Nat.le_sub_one_of_lt hpayload)
  obtain ⟨r, rfl⟩ := hpost
  have hfirst : ∀ lit : CStr, lit.head? ≠ some 0x50 → lit ≠ [] →
      lit.isPrefixOf (postPublish ++ r) = false := by
    intro lit hlit hne
    cases lit with
    | nil => exact absurd rfl hne
    | cons c lit =>
        have hc : c ≠ 0x50 := by simpa using hlit
        simp [postPublish, ascii, List.isPrefixOf, hc]
  rw [h.request_respond (fun _ ↦ hann) hw]
  unfold respond
  rw [hfirst options (by decide) (by decide), hfirst getPage (by decide) (by decide),
    hfirst getPageOnly (by decide) (by decide), hfirst getStatus (by decide) (by decide),
    List.isPrefixOf_iff_prefix.mpr (List.prefix_append postPublish r), hlen, cstr_dashboardPub t p hq]
  simp [publishApi, handlePublishApi_dashboardPub ht p hq, hkeep, hkeep']

end Http

namespace Sample

open Http

/-- The header of a request with a body of 35 bytes. -/
def postHeader : Bytes :=
  postPublish ++ [0x0D, 0x0A] ++ contentLengthName ++ ascii [' ', '3', '5'] ++ headerEnd

/-- The request arrives in three pieces, cut inside of the empty line and of the body. -/
def postWire : Wire :=
  let body := dashboardPub [0x74] [0x31] 1
  Wire.pushChunk (postHeader.take 39) (Wire.pushChunk (postHeader.drop 39 ++ body.take 5)
    (Wire.pushChunk (body.drop 5) []))

theorem isHeader_postHeader : IsHeader postHeader :=
  ⟨by decide +kernel, by decide +kernel, by decide +kernel⟩

end Sample

/-- The statement for this request. -/
theorem request_respond_postWire :
    Http.handleConnection Sample.postWire = ⟨some ⟨[0x74], [0x31], 1, 0, 0, 0⟩, some .published⟩ := by
  have hann : Http.Announces Sample.postHeader (dashboardPub [0x74] [0x31] 1) :=
    ⟨by decide +kernel, by decide +kernel, Or.inl (by decide +kernel)⟩
  have hrespond := Sample.isHeader_postHeader.request_respond (fun _ ↦ hann)
    (w := Sample.postWire) (by decide +kernel)
  rw [hrespond]
  decide +kernel

end MqttBroker
