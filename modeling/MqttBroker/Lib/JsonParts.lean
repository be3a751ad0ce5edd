import MqttBroker.Lib.JsonText

/-!
# JSON texts in parts

When a text that is put together from the texts of its parts, and whose strings
are written as they are, stands for the value that has the parts' values.
-/

namespace JsonText

section

variable {α β : Type} {item : Text → Option (α × Text)} {close first : UInt8}

/-- Before what satisfies `D`, the text `x` is read as `v` if and only if `ok` holds. -/
def Spells (item : Text → Option (α × Text)) (D : Text → Prop) (x : Text) (v : α)
    (ok : Prop) : Prop :=
  ∀ t, D t → ∀ t', item (x ++ t) = some (v, t') ↔ ok ∧ t' = t

/-- `t` goes on with an item that begins with `first`. -/
def GoesOn (first : UInt8) (t : Text) : Prop := ∃ y, t = comma :: first :: y

/-- `t` begins with the closing byte. -/
def Closes (close : UInt8) (t : Text) : Prop := ∃ y, t = close :: y

theorem skipWs_cons {c : UInt8} (hc : isWs c = false) (s : Text) : skipWs (c :: s) = c :: s :=
  List.dropWhile_cons_of_neg (by simp [hc])

/-- The same of the items up to the closing byte; there are `m` of them. -/
def SpellsItems (item : Text → Option (α × Text)) (close : UInt8) (m : ℕ) (x : Text)
    (vs : List α) (ok : Prop) : Prop :=
  ∀ n, m ≤ n → ∀ t t', items item close n (x ++ close :: t) = some (vs, t') ↔ ok ∧ t' = t

/-- The first item that is read is the first of the result. -/
theorem items_head {n : ℕ} {s t : Text} {v : α} {vs : List α}
    (h : items item close (n + 1) s = some (v :: vs, t)) : ∃ u, item (skipWs s) = some (v, u) := by
  obtain ⟨⟨w, u⟩, hw, h⟩ := Option.bind_eq_some_iff.mp h
  refine ⟨u, ?_⟩
  dsimp only at h
  split at h
  · cases h
  · split_ifs at h
    · cases h
      exact hw
    · obtain ⟨⟨ws, u'⟩, -, h⟩ := Option.bind_eq_some_iff.mp h
      cases h
      exact hw

theorem SpellsItems.last (hclose : isWs close = false) {x : Text} {v : α} {ok : Prop}
    (hx : ∃ c y, x = c :: y ∧ isWs c = false) (hv : Spells item (Closes close) x v ok) :
    SpellsItems item close 1 x [v] ok := by
  intro n hn t t'
  obtain ⟨n, rfl⟩ := Nat.exists_eq_succ_of_ne_zero (Nat.ne_zero_of_lt hn)
  obtain ⟨c, y, rfl, hc⟩ := hx
  have hstart : skipWs (c :: y ++ close :: t) = c :: y ++ close :: t := skipWs_cons hc _
  have hitem := hv (close :: t) ⟨t, rfl⟩
  have hread : item (c :: y ++ close :: t) = some (v, close :: t) →
      items item close (n + 1) (c :: y ++ close :: t) = some ([v], t) := by
    intro h
    rw [items, hstart, h]
    simp [skipWs_cons hclose]
  constructor
  · intro h
    obtain ⟨u, hu⟩ := items_head h
    rw [hstart] at hu
    obtain ⟨hok, rfl⟩ := (hitem u).mp hu
    rw [hread hu] at h
    cases h
    exact ⟨hok, rfl⟩
  · rintro ⟨hok, rfl⟩
    exact hread ((hitem _).mpr ⟨hok, rfl⟩)

theorem SpellsItems.cons (hclose : close ≠ comma) {m : ℕ} {x rest : Text} {v : α} {vs : List α}
    {ok oks : Prop} (hx : ∃ c y, x = c :: y ∧ isWs c = false)
    (hv : Spells item (GoesOn first) x v ok) (hrest : ∃ y, rest = first :: y)
    (hvs : SpellsItems item close m rest vs oks) :
    SpellsItems item close (m + 1) (x ++ comma :: rest) (v :: vs) (ok ∧ oks) := by
  intro n hn t t'
  obtain ⟨n, rfl⟩ := Nat.exists_eq_succ_of_ne_zero (Nat.ne_zero_of_lt hn)
  have htail := hvs n (Nat.le_of_succ_le_succ hn) t
  obtain ⟨c, z, rfl, hc⟩ := hx
  have htext : c :: z ++ comma :: rest ++ close :: t = c :: z ++ comma :: (rest ++ close :: t) := by
    simp
  have hstart : ∀ s, skipWs (c :: z ++ s) = c :: z ++ s := fun s ↦ skipWs_cons hc (z ++ s)
  have hgoes : GoesOn first (comma :: (rest ++ close :: t)) := by
    obtain ⟨y, rfl⟩ := hrest
    exact ⟨y ++ close :: t, rfl⟩
  have hitem := hv _ hgoes
  have hread : item (c :: z ++ comma :: (rest ++ close :: t)) =
      some (v, comma :: (rest ++ close :: t)) →
      items item close (n + 1) (c :: z ++ comma :: (rest ++ close :: t)) =
        (items item close n (rest ++ close :: t)).bind fun r ↦ some (v :: r.1, r.2) := by
    intro h
    rw [items, hstart, h]
    simp only [Option.bind_eq_bind, Option.bind_some,
      skipWs_cons (show isWs comma = false from rfl), if_neg hclose.symm, if_pos]
  rw [htext]
  constructor
  · intro h
    obtain ⟨u, hu⟩ := items_head h
    rw [hstart] at hu
    obtain ⟨hok, rfl⟩ := (hitem u).mp hu
    rw [hread hu] at h
    obtain ⟨⟨ws, u⟩, hws, h⟩ := Option.bind_eq_some_iff.mp h
    cases h
    obtain ⟨hoks, ht⟩ := (htail _).mp hws
    exact ⟨⟨hok, hoks⟩, ht⟩
  · rintro ⟨⟨hok, hoks⟩, rfl⟩
    rw [hread ((hitem _).mpr ⟨hok, rfl⟩), (htail _).mpr ⟨hoks, rfl⟩]
    rfl

/-- The texts of items, with commas between them. -/
def joined : List Text → Text
  | [] => []
  | [x] => x
  | x :: xs => x ++ comma :: joined xs

theorem joined_cons_cons (x y : Text) (xs : List Text) :
    joined (x :: y :: xs) = x ++ comma :: joined (y :: xs) := rfl

theorem joined_starts {xs : List Text} (hne : xs ≠ []) (hxs : ∀ x ∈ xs, ∃ y, x = first :: y) :
    ∃ y, joined xs = first :: y := by
  match xs with
  | [] => exact absurd rfl hne
  | [x] => exact hxs x List.mem_cons_self
  | x :: y :: xs =>
      obtain ⟨z, rfl⟩ := hxs x List.mem_cons_self
      exact ⟨_, rfl⟩

/-- Items that end by themselves, and begin with one byte. -/
theorem spellsItems_joined (hclose : close ≠ comma) (hws : isWs close = false)
    (hfirst : isWs first = false) {text : β → Text} {val : β → α} {ok : β → Prop}
    (hstart : ∀ b, ∃ y, text b = first :: y)
    (hitem : ∀ b, Spells item (fun _ ↦ True) (text b) (val b) (ok b)) {bs : List β}
    (hne : bs ≠ []) :
    SpellsItems item close bs.length (joined (bs.map text)) (bs.map val) (∀ b ∈ bs, ok b) := by
  have hbegins : ∀ b, ∃ c y, text b = c :: y ∧ isWs c = false := fun b ↦
    let ⟨y, hy⟩ := hstart b
    ⟨first, y, hy, hfirst⟩
  induction bs with
  | nil => exact absurd rfl hne
  | cons b bs ih =>
      cases bs with
      | nil =>
          have hone := SpellsItems.last hws (hbegins b) fun t _ ↦ hitem b t trivial
          rw [List.forall_mem_singleton]
          exact hone
      | cons b' bs =>
          have hrest : ∃ y, joined ((b' :: bs).map text) = first :: y := by
            refine joined_starts (List.cons_ne_nil _ _) fun x hx ↦ ?_
            obtain ⟨a, -, rfl⟩ := List.mem_map.mp hx
            exact hstart a
          rw [List.forall_mem_cons]
          exact SpellsItems.cons hclose (hbegins b) (fun t _ ↦ hitem b t trivial) hrest
            (ih (List.cons_ne_nil _ _))

theorem mem_joined {c : UInt8} {x : Text} {xs : List Text} (hx : x ∈ xs) (hc : c ∈ x) :
    c ∈ joined xs := by
  match xs with
  | [y] => exact List.mem_singleton.mp hx ▸ hc
  | y :: z :: xs =>
      rw [joined_cons_cons]
      rcases List.mem_cons.mp hx with rfl | hx
      · exact List.mem_append_left _ hc
      · exact List.mem_append_right _ (List.mem_cons_of_mem _ (mem_joined hx hc))

theorem length_joined_eq (xs : List Text) :
    (joined xs).length = (xs.map List.length).sum + (xs.length - 1) := by
  match xs with
  | [] => rfl
  | [x] => simp [joined]
  | x :: y :: xs =>
      have hrest := length_joined_eq (y :: xs)
      simp only [joined_cons_cons, List.length_append, List.length_cons, List.map_cons,
        List.sum_cons] at hrest ⊢
      omega

theorem length_joined {xs : List Text} (hxs : ∀ x ∈ xs, x ≠ []) :
    xs.length ≤ (joined xs).length := by
  have hsum : xs.length ≤ (xs.map List.length).sum := by
    have hone : ∀ n ∈ xs.map List.length, 1 ≤ n := by
      intro n hn
      obtain ⟨x, hx, rfl⟩ := List.mem_map.mp hn
      exact List.length_pos_of_ne_nil (hxs x hx)
    simpa using List.card_nsmul_le_sum (xs.map List.length) 1 hone
  rw [length_joined_eq]
  exact hsum.trans (Nat.le_add_right _ _)

theorem Spells.sequence {m : ℕ} {x : Text} {vs : List α} {ok : Prop}
    (hx : ∃ c y, x = c :: y ∧ isWs c = false ∧ c ≠ close) (hm : m ≤ x.length)
    (hvs : SpellsItems item close m x vs ok) :
    Spells (sequence item close) (fun _ ↦ True) (x ++ [close]) vs ok := by
  intro t _ t'
  have hfuel := hvs (x ++ close :: t).length (by rw [List.length_append]; omega) t t'
  obtain ⟨c, y, rfl, hc, hne⟩ := hx
  rw [List.append_assoc, List.singleton_append, JsonText.sequence]
  rw [List.cons_append] at hfuel ⊢
  rw [skipWs_cons hc]
  dsimp only
  rw [if_neg hne]
  exact hfuel

theorem spells_sequence_nil (hclose : isWs close = false) :
    Spells (sequence item close) (fun _ ↦ True) [close] [] True := by
  intro t _ t'
  rw [List.singleton_append, sequence, skipWs_cons hclose]
  dsimp only
  rw [if_pos rfl]
  simp [eq_comm]

theorem Spells.mono {D D' : Text → Prop} {x : Text} {v : α} {ok : Prop}
    (hv : Spells item D x v ok) (hD : ∀ t, D' t → D t) : Spells item D' x v ok :=
  fun t ht ↦ hv t (hD t ht)

theorem Spells.congr {D : Text → Prop} {x : Text} {v : α} {ok ok' : Prop}
    (hv : Spells item D x v ok) (hok : ok ↔ ok') : Spells item D x v ok' :=
  fun t ht t' ↦ (hv t ht t').trans (and_congr_left' hok)

end

/-! ## Values -/

def strText (r : Text) : Text := quote :: (r ++ [quote])

def arrText (xs : List Text) : Text := lbracket :: (joined xs ++ [rbracket])

def objText (xs : List Text) : Text := lbrace :: (joined xs ++ [rbrace])

def memberText (key x : Text) : Text := quote :: (key ++ quote :: colon :: x)

/-- Keys of ASCII characters that need no escape. -/
def IsKey (key : Text) : Prop := ∀ c ∈ key, Plain c ∧ c < 0x80

instance (key : Text) : Decidable (IsKey key) := List.decidableBAll _ _

theorem spells_str (k : ℕ) (r : Text) :
    Spells (value (k + 1)) (GoesOn quote) (strText r) (.str r) (∀ c ∈ r, Plain c) := by
  rintro _ ⟨y, rfl⟩ t'
  have htext : strText r ++ comma :: quote :: y = quote :: (r ++ quote :: comma :: quote :: y) := by
    simp [strText]
  rw [htext, value, if_pos rfl, ← string_eq_iff]
  constructor
  · intro h
    obtain ⟨⟨d, t⟩, hd, h⟩ := Option.map_eq_some_iff.mp h
    cases h
    exact hd
  · intro h
    rw [h]
    rfl

theorem value_of_numeric {c : UInt8} (hc : isDigit c = true ∨ c = minus) (k : ℕ) (s : Text) :
    value (k + 1) (c :: s) = (number (c :: s)).map fun r ↦ (.num r.1, r.2) := by
  have hne : c ≠ quote ∧ c ≠ lbracket ∧ c ≠ lbrace ∧ c ≠ 0x6E ∧ c ≠ 0x74 ∧ c ≠ 0x66 := by
    revert c
    decide +kernel
  rw [value, if_neg hne.1, if_neg hne.2.1, if_neg hne.2.2.1, if_neg hne.2.2.2.1,
    if_neg hne.2.2.2.2.1, if_neg hne.2.2.2.2.2]

theorem intText_starts (z : ℤ) :
    ∃ c y, intText z = c :: y ∧ (isDigit c = true ∨ c = minus) := by
  unfold intText
  split_ifs
  · exact ⟨minus, _, rfl, Or.inr rfl⟩
  · obtain ⟨c, y, hy⟩ := List.exists_cons_of_ne_nil (natText_ne_nil z.natAbs)
    exact ⟨c, y, hy, Or.inl (natText_isDigit z.natAbs c (by rw [hy]; exact List.mem_cons_self))⟩

theorem spells_int (k : ℕ) (z : ℤ) :
    Spells (value (k + 1)) Stops (intText z) (.num z) True := by
  intro t ht t'
  obtain ⟨c, y, hy, hc⟩ := intText_starts z
  have hnumber := number_intText z ht
  rw [hy, List.cons_append] at hnumber ⊢
  rw [value_of_numeric hc, hnumber]
  simp [eq_comm]

theorem Spells.arr {k : ℕ} {x : Text} {vs : List Value} {ok : Prop}
    (h : Spells (JsonText.sequence (value k) rbracket) (fun _ ↦ True) x vs ok) :
    Spells (value (k + 1)) (fun _ ↦ True) (lbracket :: x) (.arr vs) ok := by
  intro t ht t'
  rw [← h t ht, List.cons_append, value, if_neg (by decide), if_pos rfl, Option.map_eq_some_iff]
  simp

theorem Spells.obj {k : ℕ} {x : Text} {ms : List (Text × Value)} {ok : Prop}
    (h : Spells (JsonText.sequence (JsonText.member (value k)) rbrace) (fun _ ↦ True) x ms ok) :
    Spells (value (k + 1)) (fun _ ↦ True) (lbrace :: x) (.obj ms) ok := by
  intro t ht t'
  rw [← h t ht, List.cons_append, value, if_neg (by decide), if_neg (by decide), if_pos rfl,
    Option.map_eq_some_iff]
  simp

theorem Spells.member {item : Text → Option (Value × Text)} {D : Text → Prop} {key x : Text}
    {v : Value} {ok : Prop} (hkey : IsKey key)
    (hx : ∃ c y, x = c :: y ∧ isWs c = false) (hv : Spells item D x v ok) :
    Spells (JsonText.member item) D (memberText key x) (key, v) ok := by
  intro t ht t'
  obtain ⟨c, y, rfl, hc⟩ := hx
  have htext : memberText key (c :: y) ++ t =
      quote :: (key ++ quote :: (colon :: (c :: y ++ t))) := by simp [memberText]
  have hvalue : skipWs (c :: y ++ t) = c :: y ++ t := skipWs_cons hc _
  rw [← hv t ht, htext, JsonText.member, if_pos rfl, string_plain fun c hc ↦ (hkey c hc).1]
  simp only [Option.bind_eq_bind, Option.bind_some, skipWs_cons (show isWs colon = false from rfl),
    if_pos, hvalue]
  constructor
  · intro h
    obtain ⟨⟨w, u⟩, hw, h⟩ := Option.bind_eq_some_iff.mp h
    cases h
    exact hw
  · intro h
    rw [h]
    rfl

/-- The members of an object, one by one; there are `m` of them. -/
structure Members (k m : ℕ) (x : Text) (ms : List (Text × Value)) (ok : Prop) : Prop where
  starts : ∃ y, x = quote :: y
  length : m ≤ x.length
  spells : SpellsItems (JsonText.member (value k)) rbrace m x ms ok

theorem Members.last {k : ℕ} {key x : Text} {v : Value} {ok : Prop} (hkey : IsKey key)
    (hx : ∃ c y, x = c :: y ∧ isWs c = false) (hv : Spells (value k) (Closes rbrace) x v ok) :
    Members k 1 (memberText key x) [(key, v)] ok where
  starts := ⟨_, rfl⟩
  length := Nat.succ_pos _
  spells := .last rfl ⟨quote, _, rfl, rfl⟩ (.member hkey hx hv)

theorem Members.cons {k m : ℕ} {key x y : Text} {v : Value} {ms : List (Text × Value)}
    {ok oks : Prop} (hkey : IsKey key) (hx : ∃ c y, x = c :: y ∧ isWs c = false)
    (hv : Spells (value k) (GoesOn quote) x v ok) (h : Members k m y ms oks) :
    Members k (m + 1) (memberText key x ++ comma :: y) ((key, v) :: ms) (ok ∧ oks) where
  starts := ⟨_, rfl⟩
  length := by
    have hlen := h.length
    rw [List.length_append, List.length_cons]
    omega
  spells := .cons (by decide) ⟨quote, _, rfl, rfl⟩ (.member hkey hx hv) h.starts h.spells

theorem Members.obj {k m : ℕ} {x : Text} {ms : List (Text × Value)} {ok : Prop}
    (h : Members k m x ms ok) :
    Spells (value (k + 1)) (fun _ ↦ True) (lbrace :: (x ++ [rbrace])) (.obj ms) ok := by
  obtain ⟨y, hy⟩ := h.starts
  exact Spells.obj (.sequence ⟨quote, y, hy, rfl, by decide⟩ h.length h.spells)

theorem spells_arrText {β : Type} {k : ℕ} {text : β → Text} {val : β → Value} {ok : β → Prop}
    (hstart : ∀ b, ∃ y, text b = lbrace :: y)
    (hitem : ∀ b, Spells (value k) (fun _ ↦ True) (text b) (val b) (ok b)) (bs : List β) :
    Spells (value (k + 1)) (fun _ ↦ True) (arrText (bs.map text)) (.arr (bs.map val))
      (∀ b ∈ bs, ok b) := by
  apply Spells.arr
  cases bs with
  | nil => exact (spells_sequence_nil rfl).congr (by simp)
  | cons b bs =>
      have hne : ∀ x ∈ (b :: bs).map text, ∃ y, x = lbrace :: y := by
        intro x hx
        obtain ⟨a, -, rfl⟩ := List.mem_map.mp hx
        exact hstart a
      obtain ⟨y, hy⟩ := joined_starts (List.cons_ne_nil _ _) hne
      refine .sequence ⟨lbrace, y, hy, rfl, by decide⟩ ?_
        (spellsItems_joined (by decide) rfl rfl hstart hitem (List.cons_ne_nil b bs))
      have hlen := length_joined fun x hx ↦ by
        obtain ⟨z, hz⟩ := hne x hx
        exact hz ▸ List.cons_ne_nil lbrace z
      rwa [List.length_map] at hlen

/-! ### Numbers and strings as members -/

theorem GoesOn.stops {t : Text} (h : GoesOn quote t) : Stops t := by
  obtain ⟨y, rfl⟩ := h
  exact ⟨comma, _, rfl, Or.inl rfl⟩

theorem Closes.stops {t : Text} (h : Closes rbrace t) : Stops t := by
  obtain ⟨y, rfl⟩ := h
  exact ⟨rbrace, y, rfl, Or.inr (Or.inl rfl)⟩

theorem intText_no_ws (z : ℤ) : ∃ c y, intText z = c :: y ∧ isWs c = false := by
  have hall : ∀ c, isDigit c = true ∨ c = minus → isWs c = false := by decide +kernel
  obtain ⟨c, y, hy, hc⟩ := intText_starts z
  exact ⟨c, y, hy, hall c hc⟩

theorem Members.lastInt {k : ℕ} {key : Text} (hkey : IsKey key) (z : ℤ) :
    Members (k + 1) 1 (memberText key (intText z)) [(key, .num z)] True :=
  .last hkey (intText_no_ws z) ((spells_int k z).mono fun _ ↦ Closes.stops)

theorem Members.consInt {k m : ℕ} {key y : Text} {ms : List (Text × Value)} {oks : Prop}
    (hkey : IsKey key) (z : ℤ) (h : Members (k + 1) m y ms oks) :
    Members (k + 1) (m + 1) (memberText key (intText z) ++ comma :: y) ((key, .num z) :: ms)
      (True ∧ oks) :=
  .cons hkey (intText_no_ws z) ((spells_int k z).mono fun _ ↦ GoesOn.stops) h

theorem Members.consStr {k m : ℕ} {key y : Text} {ms : List (Text × Value)} {oks : Prop}
    (hkey : IsKey key) (r : Text) (h : Members (k + 1) m y ms oks) :
    Members (k + 1) (m + 1) (memberText key (strText r) ++ comma :: y) ((key, .str r) :: ms)
      ((∀ c ∈ r, Plain c) ∧ oks) :=
  .cons hkey ⟨quote, _, rfl, rfl⟩ (spells_str k r) h

/-! ## Whole texts -/

theorem document_iff {m : ℕ} {x : Text} {v : Value} {ok : Prop}
    (hx : ∃ c y, x = c :: y ∧ isWs c = false) (hm : m ≤ x.length)
    (hv : ∀ k, m ≤ k → Spells (value k) (fun _ ↦ True) x v ok) : document x = some v ↔ ok := by
  have hvalue : ∀ t', value x.length x = some (v, t') ↔ ok ∧ t' = [] := fun t' ↦ by
    have h := hv x.length hm [] trivial t'
    rwa [List.append_nil] at h
  have hstart : skipWs x = x := by
    obtain ⟨c, y, rfl, hc⟩ := hx
    exact skipWs_cons hc y
  rw [document, hstart]
  constructor
  · intro h
    obtain ⟨⟨w, t⟩, hw, h⟩ := Option.bind_eq_some_iff.mp h
    dsimp only at h
    split_ifs at h
    cases h
    exact ((hvalue t).mp hw).1
  · intro hok
    rw [(hvalue []).mpr ⟨hok, rfl⟩]
    rfl

/-! ## UTF-8 -/

def Utf8 (s : Text) : Prop := ∃ cs : List Char, s = cs.flatMap String.utf8EncodeChar

theorem utf8_nil : Utf8 [] := ⟨[], rfl⟩

theorem Utf8.append {s t : Text} (hs : Utf8 s) (ht : Utf8 t) : Utf8 (s ++ t) := by
  obtain ⟨cs, rfl⟩ := hs
  obtain ⟨ds, rfl⟩ := ht
  exact ⟨cs ++ ds, List.flatMap_append.symm⟩

theorem utf8_encodeChar (c : Char) : Utf8 (String.utf8EncodeChar c) := ⟨[c], by simp⟩

theorem encodeChar_ascii : ∀ c : UInt8, c < 0x80 →
    String.utf8EncodeChar (Char.ofNat c.toNat) = [c] := by decide +kernel

/-- A character is one byte, or it has no ASCII byte. -/
theorem encodeChar_cases (ch : Char) : (∃ c, String.utf8EncodeChar ch = [c]) ∨
    ∀ c ∈ String.utf8EncodeChar ch, 0x80 ≤ c := by
  have hhigh : ∀ n, 0x80 ≤ n % 256 → 0x80 ≤ UInt8.ofNat n := fun n hn ↦ by
    rw [UInt8.le_iff_toNat_le, UInt8.toNat_ofNat']
    exact hn
  unfold String.utf8EncodeChar
  dsimp only
  split_ifs
  · exact Or.inl ⟨_, rfl⟩
  all_goals
    right
    simp only [List.mem_cons, List.not_mem_nil, or_false, forall_eq_or_imp, forall_eq]
  · exact ⟨hhigh _ (by omega), hhigh _ (by omega)⟩
  · exact ⟨hhigh _ (by omega), hhigh _ (by omega), hhigh _ (by omega)⟩
  · exact ⟨hhigh _ (by omega), hhigh _ (by omega), hhigh _ (by omega), hhigh _ (by omega)⟩

theorem encodeChar_of_ascii_mem {ch : Char} {p q : Text} {c : UInt8}
    (h : String.utf8EncodeChar ch = p ++ c :: q) (hc : c < 0x80) : p = [] ∧ q = [] := by
  rcases encodeChar_cases ch with ⟨x, hx⟩ | hhigh
  · rw [hx] at h
    cases p with
    | nil => exact ⟨rfl, (List.cons_eq_cons.mp h).2.symm⟩
    | cons y p => simp at h
  · have hle := hhigh c (by rw [h]; simp)
    exact absurd hc (UInt8.not_lt.mpr hle)

/-- An ASCII byte is a character, whatever stands around it. -/
theorem utf8_append_cons {a b : Text} {c : UInt8} (hc : c < 0x80) :
    Utf8 (a ++ c :: b) ↔ Utf8 a ∧ Utf8 b := by
  constructor
  · rintro ⟨cs, hcs⟩
    induction cs generalizing a with
    | nil => simp at hcs
    | cons ch cs ih =>
        rw [List.flatMap_cons] at hcs
        have hpast : ∀ a', a = String.utf8EncodeChar ch ++ a' →
            a' ++ c :: b = cs.flatMap String.utf8EncodeChar → Utf8 a ∧ Utf8 b := by
          rintro a' rfl hrest
          obtain ⟨ha, hb⟩ := ih hrest
          exact ⟨(utf8_encodeChar ch).append ha, hb⟩
        rcases List.append_eq_append_iff.mp hcs with ⟨a', hch, hrest⟩ | ⟨a', ha, hrest⟩
        · cases a' with
          | nil => exact hpast [] (by simpa using hch.symm) hrest
          | cons x a' =>
              obtain ⟨rfl, hb⟩ := List.cons_eq_cons.mp hrest
              obtain ⟨rfl, rfl⟩ := encodeChar_of_ascii_mem hch hc
              exact ⟨utf8_nil, cs, hb⟩
        · exact hpast a' ha hrest.symm
  · rintro ⟨ha, hb⟩
    have hone : Utf8 [c] := ⟨[Char.ofNat c.toNat], by simp [encodeChar_ascii c hc]⟩
    exact ha.append (hone.append hb)

/-- In front of any text, `x` is valid UTF-8 if and only if `ok` holds. -/
def Utf8Part (x : Text) (ok : Prop) : Prop := ∀ t, Utf8 (x ++ t) ↔ ok ∧ Utf8 t

theorem utf8Part_nil : Utf8Part [] True := fun t ↦ by simp

theorem Utf8Part.ascii {x : Text} {c : UInt8} (hc : c < 0x80) {ok : Prop} (hx : Utf8Part x ok) :
    Utf8Part (c :: x) ok := by
  intro t
  have h := utf8_append_cons (a := []) (b := x ++ t) hc
  exact h.trans ((and_iff_right utf8_nil).trans (hx t))

theorem utf8Part_ascii {x : Text} (hx : ∀ c ∈ x, c < 0x80) : Utf8Part x True := by
  induction x with
  | nil => exact utf8Part_nil
  | cons c x ih =>
      exact (ih fun y hy ↦ hx y (List.mem_cons_of_mem c hy)).ascii (hx c List.mem_cons_self)

theorem Utf8Part.append {x y : Text} {p q : Prop} (hx : Utf8Part x p) (hy : Utf8Part y q) :
    Utf8Part (x ++ y) (p ∧ q) := by
  intro t
  rw [List.append_assoc, hx, hy, and_assoc]

theorem utf8Part_strText (r : Text) : Utf8Part (strText r) (Utf8 r) := by
  intro t
  have htext : strText r ++ t = [] ++ quote :: (r ++ quote :: t) := by simp [strText]
  rw [htext, utf8_append_cons (by decide), utf8_append_cons (by decide)]
  exact and_iff_right utf8_nil

theorem Utf8Part.utf8_iff {x : Text} {ok : Prop} (hx : Utf8Part x ok) : Utf8 x ↔ ok := by
  have h := hx []
  rw [List.append_nil] at h
  exact h.trans (and_iff_left utf8_nil)

theorem utf8Part_joined {β : Type} {text : β → Text} {ok : β → Prop}
    (htext : ∀ b, Utf8Part (text b) (ok b)) (bs : List β) :
    Utf8Part (joined (bs.map text)) (∀ b ∈ bs, ok b) := by
  induction bs with
  | nil =>
      intro t
      simp [joined]
  | cons b bs ih =>
      cases bs with
      | nil =>
          rw [List.forall_mem_singleton]
          exact htext b
      | cons b' bs =>
          rw [List.forall_mem_cons]
          exact (htext b).append (ih.ascii (by decide))

theorem Utf8Part.congr {x : Text} {ok ok' : Prop} (hx : Utf8Part x ok) (hok : ok ↔ ok') :
    Utf8Part x ok' := fun t ↦ (hx t).trans (and_congr_left' hok)

theorem Utf8Part.separated {x y : Text} {p q : Prop} (hx : Utf8Part x p) (hy : Utf8Part y q) :
    Utf8Part (x ++ comma :: y) (p ∧ q) := hx.append (hy.ascii (by decide))

/-- Brackets around a text. -/
theorem Utf8Part.enclosed {x : Text} {ok : Prop} (hx : Utf8Part x ok) {c d : UInt8}
    (hc : c < 0x80) (hd : d < 0x80) : Utf8Part (c :: (x ++ [d])) ok :=
  ((hx.append (utf8Part_nil.ascii hd)).congr (iff_of_eq (and_true ok))).ascii hc

theorem Utf8Part.member {key x : Text} {ok : Prop} (hkey : IsKey key)
    (hx : Utf8Part x ok) : Utf8Part (memberText key x) ok := by
  have hname : Utf8Part key True := utf8Part_ascii fun c hc ↦ (hkey c hc).2
  have hvalue : Utf8Part (quote :: colon :: x) ok := (hx.ascii (by decide)).ascii (by decide)
  exact ((hname.append hvalue).congr (iff_of_eq (true_and ok))).ascii (by decide)

theorem utf8Part_intText (z : ℤ) : Utf8Part (intText z) True := by
  have hascii : ∀ c, isDigit c = true → c < 0x80 := by decide +kernel
  apply utf8Part_ascii
  intro c hc
  unfold intText at hc
  split_ifs at hc
  · rcases List.mem_cons.mp hc with rfl | hc
    · decide
    · exact hascii c (natText_isDigit _ c hc)
  · exact hascii c (natText_isDigit _ c hc)

theorem utf8Part_memberInt {key : Text} (hkey : IsKey key) (z : ℤ) :
    Utf8Part (memberText key (intText z)) True := .member hkey (utf8Part_intText z)

theorem utf8Part_memberStr {key : Text} (hkey : IsKey key) (r : Text) :
    Utf8Part (memberText key (strText r)) (Utf8 r) := .member hkey (utf8Part_strText r)

theorem Utf8Part.braced {x : Text} {ok : Prop} (hx : Utf8Part x ok) :
    Utf8Part (lbrace :: (x ++ [rbrace])) ok := hx.enclosed (by decide) (by decide)

/-- The text `x` is valid, and it stands for `v`. -/
def StandsFor (x : Text) (v : Value) : Prop := Utf8 x ∧ document x = some v

end JsonText
