import MqttBroker.Basic

/-!
# Topic filters

The validity check and the character walk of `topic.c`, and the level-wise
definition of matching from MQTT 3.1.1 section 4.7.  The walk never splits a
string into levels; `matchFrom_eq_codeLevels` recovers the levels it compares.
-/

namespace MqttBroker

open Ch

/-! ## The code -/

/-- The loop of `topic_filter_valid`; `prev` is `*(p - 1)`, absent at the start. -/
def filterValidFrom : Option UInt8 → CStr → Bool
  | _, [] => true
  | prev, c :: rest =>
      if c = hash then
        if rest ≠ [] then false
        else if prev.isSome ∧ prev ≠ some slash then false
        else filterValidFrom (some c) rest
      else if c = plus then
        if prev.isSome ∧ prev ≠ some slash then false
        else if rest ≠ [] ∧ rest.head? ≠ some slash then false
        else filterValidFrom (some c) rest
      else filterValidFrom (some c) rest

def topicFilterValid (filter : CStr) : Bool :=
  if filter = [] then false else filterValidFrom none filter

/-- `while (*t && *t != '/') t++;` -/
def skipLevel : CStr → CStr
  | [] => []
  | c :: t => if c = slash then c :: t else skipLevel t

/-- How the loop `while (*f && *t)` ends: by one of its returns, or with the
two pointers where one of the strings is exhausted. -/
inductive WalkEnd where
  | accept
  | reject
  | stopped (f t : CStr)
  deriving DecidableEq, Repr

/-- The loop shared by `topic_match` of `topic.c` and of `p2p_router.c` and by
`mqtt_topic_match` of `broker.c`. -/
def matchWalk : CStr → CStr → WalkEnd
  | [], t => .stopped [] t
  | c :: f, [] => .stopped (c :: f) []
  | c :: f, d :: t =>
      if c = hash then .accept
      else if c = plus then matchWalk f (skipLevel (d :: t))
      else if c ≠ d then .reject
      else matchWalk f t

/-- The loop and the tests after it.  `parentRule` says whether the copy has
the test that lets `sport/tennis/#` match `sport/tennis`. -/
def matchFrom (parentRule : Bool) (filter topic : CStr) : Bool :=
  match matchWalk filter topic with
  | .accept => true
  | .reject => false
  | .stopped f t =>
      if f.head? = some hash then true
      else if parentRule ∧ f = [slash, hash] ∧ t = [] then true
      else f = [] ∧ t = []

/-- `topic[0] == '$' && (filter[0] == '+' || filter[0] == '#')` -/
def dollarGuard (filter topic : CStr) : Bool :=
  topic.head? = some dollar ∧ (filter.head? = some plus ∨ filter.head? = some hash)

/-- `topic_match` of `topic.c`. -/
def topicMatch (filter topic : CStr) : Bool :=
  if dollarGuard filter topic then false else matchFrom true filter topic

/-! ## Matching by levels -/

/-- The levels of a filter or of a topic name. -/
def levels (s : CStr) : List CStr := s.splitOn slash

/-- Level-wise matching: `+` stands for one level, a final `#` for the rest,
which may be no level at all. -/
def levelsMatch : List CStr → List CStr → Bool
  | [], [] => true
  | [], _ :: _ => false
  | f :: fs, [] => f = [hash] ∧ fs = []
  | f :: fs, t :: ts =>
      if f = [hash] ∧ fs = [] then true
      else (f = [plus] ∨ f = t) ∧ levelsMatch fs ts

/-- The filter's first level is a wildcard and the topic starts with `$`. -/
def dollarTopic (filter topic : CStr) : Prop :=
  topic.head? = some dollar ∧
    ((levels filter).head? = some [plus] ∨ (levels filter).head? = some [hash])

instance (filter topic : CStr) : Decidable (dollarTopic filter topic) := by
  unfold dollarTopic; infer_instance

/-- MQTT 3.1.1 section 4.7, including the rule on `$` topics of 4.7.2. -/
def filterMatches (filter topic : CStr) : Bool :=
  !(decide (dollarTopic filter topic)) && levelsMatch (levels filter) (levels topic)

/-- The topic ends in an empty level and the filter has the wildcard `w` at
that level. -/
def wildAtEmptyEnd (w : UInt8) (fs ts : List CStr) : Prop :=
  ts.getLast? = some [] ∧ fs[ts.length - 1]? = some [w]

instance (w : UInt8) (fs ts : List CStr) : Decidable (wildAtEmptyEnd w fs ts) := by
  unfold wildAtEmptyEnd; infer_instance

@[simp] theorem not_wildAtEmptyEnd_nil (w : UInt8) (fs : List CStr) :
    ¬ wildAtEmptyEnd w fs [] := by
  simp [wildAtEmptyEnd]

@[simp] theorem wildAtEmptyEnd_singleton (w : UInt8) (f t : CStr) (fs : List CStr) :
    wildAtEmptyEnd w (f :: fs) [t] ↔ t = [] ∧ f = [w] := by
  simp [wildAtEmptyEnd]

theorem wildAtEmptyEnd_cons (w : UInt8) (f t : CStr) (fs : List CStr) {ts : List CStr}
    (hts : ts ≠ []) :
    wildAtEmptyEnd w (f :: fs) (t :: ts) ↔ wildAtEmptyEnd w fs ts := by
  obtain ⟨u, us, rfl⟩ := List.exists_cons_of_ne_nil hts
  simp [wildAtEmptyEnd]

/-! ## Splitting into levels -/

theorem levels_nil : levels [] = [[]] := rfl

theorem levels_slash (s : CStr) : levels (slash :: s) = [] :: levels s := by
  simp [levels, List.splitOn_cons_eq_if_modifyHead]

theorem levels_cons {c : UInt8} (hc : c ≠ slash) {s : CStr} {l : CStr} {ls : List CStr}
    (h : levels s = l :: ls) : levels (c :: s) = (c :: l) :: ls := by
  unfold levels at h ⊢
  rw [List.splitOn_cons_eq_if_modifyHead, h]
  simp [hc]

theorem exists_levels (s : CStr) : ∃ l ls, levels s = l :: ls :=
  List.exists_cons_of_ne_nil (List.splitOn_ne_nil slash s)

theorem levels_eq_singleton_nil {s : CStr} : levels s = [[]] ↔ s = [] := by
  refine ⟨fun h ↦ ?_, by rintro rfl; rfl⟩
  cases s with
  | nil => rfl
  | cons c s =>
      obtain ⟨l, ls, hs⟩ := exists_levels s
      by_cases hc : c = slash
      · simp [hc, levels_slash, hs] at h
      · simp [levels_cons hc hs] at h

/-- Skipping to the next `/` empties the first level and keeps the others. -/
theorem levels_skipLevel {s t : CStr} {ts : List CStr} (h : levels s = t :: ts) :
    levels (skipLevel s) = [] :: ts := by
  induction s generalizing t with
  | nil =>
      simp only [levels_nil, List.cons.injEq] at h
      simp [skipLevel, levels_nil, ← h.2]
  | cons c s ih =>
      obtain ⟨l, ls, hs⟩ := exists_levels s
      by_cases hc : c = slash
      · subst hc
        rw [levels_slash, List.cons.injEq] at h
        simp [skipLevel, levels_slash, h.2]
      · rw [levels_cons hc hs, List.cons.injEq] at h
        simpa [skipLevel, hc] using ih (hs.trans (by rw [h.2]))

/-! ## The walk compares levels -/

/-- What the walk decides, told by levels.  `parent` lets a final `#` match
the parent level, `hashEnd` lets it match an empty last level. -/
def codeLevels (parent hashEnd : Bool) : List CStr → List CStr → Bool
  | [], [] => true
  | [], _ :: _ => false
  | f :: fs, [] => parent ∧ f = [hash] ∧ fs = []
  | f :: fs, t :: ts =>
      if f = [hash] ∧ fs = [] then hashEnd ∨ ¬(t = [] ∧ ts = [])
      else if f = [plus] then ¬(t = [] ∧ ts = []) ∧ codeLevels parent hashEnd fs ts
      else f = t ∧ codeLevels parent hashEnd fs ts

/-- The walk's decision is level-wise matching less the ends it misses. -/
theorem codeLevels_iff (parent hashEnd : Bool) (fs ts : List CStr) :
    codeLevels parent hashEnd fs ts = true ↔
      levelsMatch fs ts = true ∧ ¬ wildAtEmptyEnd plus fs ts ∧
        (parent = true ∨ fs.length ≠ ts.length + 1) ∧
        (hashEnd = true ∨ ¬ wildAtEmptyEnd hash fs ts) := by
  induction fs generalizing ts with
  | nil => cases ts <;> simp [codeLevels, levelsMatch, wildAtEmptyEnd]
  | cons f fs ih =>
      cases ts with
      | nil =>
          simp only [codeLevels, levelsMatch, not_wildAtEmptyEnd_nil, decide_eq_true_eq]
          constructor
          · rintro ⟨hp, hf, hfs⟩
            simp [hp, hf, hfs]
          · rintro ⟨⟨hf, hfs⟩, -, hp, -⟩
            subst hfs
            exact ⟨by simpa using hp, hf, rfl⟩
      | cons t ts =>
          by_cases hh : f = [hash] ∧ fs = []
          · obtain ⟨rfl, rfl⟩ := hh
            cases ts <;> cases hashEnd <;>
              simp [codeLevels, levelsMatch, wildAtEmptyEnd]
          · have hlen : (f :: fs).length ≠ (t :: ts).length + 1 ↔
                fs.length ≠ ts.length + 1 := by simp
            have hrec : codeLevels parent hashEnd (f :: fs) (t :: ts) = true ↔
                ((f = [plus] ∧ (¬ t = [] ∨ ¬ ts = [])) ∨ (f ≠ [plus] ∧ f = t)) ∧
                  codeLevels parent hashEnd fs ts = true := by
              by_cases hp : f = [plus] <;> simp [codeLevels, hh, hp]
            have hspec : levelsMatch (f :: fs) (t :: ts) = true ↔
                (f = [plus] ∨ f = t) ∧ levelsMatch fs ts = true := by
              simp [levelsMatch, hh]
            rw [hrec, ih ts, hspec, hlen]
            -- only a last level of the topic can be an empty end
            by_cases hts : ts = []
            · subst hts
              simp only [not_wildAtEmptyEnd_nil, wildAtEmptyEnd_singleton]
              by_cases hp : f = [plus]
              · by_cases ht : t = [] <;> simp [hp, ht]
              · by_cases hft : f = t
                · subst hft
                  by_cases hf : f = [] <;> simp [hp, hf]
                · simp [hp, hft]
            · rw [wildAtEmptyEnd_cons _ _ _ _ hts, wildAtEmptyEnd_cons _ _ _ _ hts]
              by_cases hp : f = [plus]
              · simp [hp, hts]
              · by_cases hft : f = t
                · subst hft
                  simp [hp]
                · simp [hp, hft]

/-- The equations that every copy of the walk satisfies on filters whose `#`
is their last character. -/
structure LevelWalk (parent hashEnd : Bool) (walk : CStr → CStr → Bool) : Prop where
  filterEnd : ∀ t, walk [] t = decide (t = [])
  topicEnd : ∀ c f, c ≠ hash →
    walk (c :: f) [] = decide (parent = true ∧ c :: f = [slash, hash])
  hashAtEnd : walk [hash] [] = hashEnd
  hashInside : ∀ d t, walk [hash] (d :: t) = true
  plusStep : ∀ f d t, walk (plus :: f) (d :: t) = walk f (skipLevel (d :: t))
  charStep : ∀ c f d t, c ≠ hash → c ≠ plus →
    walk (c :: f) (d :: t) = (decide (c = d) && walk f t)

section LevelWalk

variable {parent hashEnd : Bool} {walk : CStr → CStr → Bool}

theorem LevelWalk.walk_slash (h : LevelWalk parent hashEnd walk) {f t u : CStr}
    {us : List CStr} (ht : levels t = u :: us)
    (ih : ∀ s, walk f s = codeLevels parent hashEnd (levels f) (levels s)) :
    walk (slash :: f) t = (decide (u = []) && codeLevels parent hashEnd (levels f) us) := by
  cases t with
  | nil =>
      simp only [levels_nil, List.cons.injEq] at ht
      obtain ⟨g, gs, hf⟩ := exists_levels f
      have hlast : f = [hash] ↔ g = [hash] ∧ gs = [] := by
        constructor
        · rintro rfl
          have hl : levels [hash] = [[hash]] := rfl
          rw [hl, List.cons.injEq] at hf
          exact ⟨hf.1.symm, hf.2.symm⟩
        · rintro ⟨rfl, rfl⟩
          have hjoin : [slash].intercalate (f.splitOn slash) = f :=
            List.intercalate_splitOn slash
          unfold levels at hf
          simpa [hf] using hjoin.symm
      simp [h.topicEnd, ← ht.1, ← ht.2, hf, codeLevels, hlast]
  | cons d t =>
      rw [h.charStep _ _ _ _ slash_ne_hash slash_ne_plus]
      by_cases hd : d = slash
      · subst hd
        rw [levels_slash, List.cons.injEq] at ht
        simp [← ht.1, ← ht.2, ih]
      · obtain ⟨l, ls, hl⟩ := exists_levels t
        rw [levels_cons hd hl, List.cons.injEq] at ht
        simp [← ht.1, Ne.symm hd]

/-- Inside a literal level the walk compares the rest of the level; at the
start of a level it takes the level's decision. -/
theorem LevelWalk.walk_eq (h : LevelWalk parent hashEnd walk) (f : CStr) :
    ∀ prev, filterValidFrom prev f = true →
      (prev = none ∨ prev = some slash →
        ∀ t, walk f t = codeLevels parent hashEnd (levels f) (levels t)) ∧
      (prev ≠ none → prev ≠ some slash → ∀ g gs t u us,
        levels f = g :: gs → levels t = u :: us →
        walk f t = (decide (g = u) && codeLevels parent hashEnd gs us)) := by
  induction f with
  | nil =>
      intro prev _
      have hend : ∀ t u us, levels t = u :: us → (t = [] ↔ u = [] ∧ us = []) := by
        intro t u us ht
        rw [← levels_eq_singleton_nil, ht, List.cons.injEq]
      refine ⟨fun _ t ↦ ?_, fun _ _ g gs t u us hg ht ↦ ?_⟩
      · obtain ⟨u, us, ht⟩ := exists_levels t
        cases us <;> simp [h.filterEnd, hend t u _ ht, levels_nil, ht, codeLevels, eq_comm]
      · simp only [levels_nil, List.cons.injEq] at hg
        cases us <;> simp [h.filterEnd, hend t u _ ht, ← hg.1, ← hg.2, codeLevels, eq_comm]
  | cons c f ih =>
      intro prev hv
      by_cases hhash : c = hash
      · subst hhash
        simp only [filterValidFrom, if_true] at hv
        split_ifs at hv with hrest hprev
        obtain rfl : f = [] := by simpa using hrest
        refine ⟨fun _ t ↦ ?_, fun h₁ h₂ ↦ ?_⟩
        · obtain ⟨u, us, ht⟩ := exists_levels t
          have hl : levels [hash] = [[hash]] := rfl
          cases t with
          | nil =>
              simp only [levels_nil, List.cons.injEq] at ht
              simp [h.hashAtEnd, hl, levels_nil, codeLevels]
          | cons d t =>
              have hne : ¬(u = [] ∧ us = []) := by
                rintro ⟨rfl, rfl⟩
                simp [levels_eq_singleton_nil] at ht
              rw [h.hashInside, hl, ht]
              simp [codeLevels, hne]
        · exact absurd ⟨Option.isSome_iff_ne_none.mpr h₁, h₂⟩ hprev
      · by_cases hplus : c = plus
        · subst hplus
          simp only [filterValidFrom, hhash, if_false, if_true] at hv
          split_ifs at hv with hprev hrest
          refine ⟨fun _ t ↦ ?_, fun h₁ h₂ ↦ ?_⟩
          · obtain ⟨g, gs, hg⟩ := exists_levels f
            obtain ⟨u, us, ht⟩ := exists_levels t
            have hgnil : g = [] := by
              cases f with
              | nil => simpa [levels_nil, eq_comm] using (List.cons.inj hg).1
              | cons d f =>
                  obtain rfl : d = slash := by simpa using hrest
                  rw [levels_slash, List.cons.injEq] at hg
                  exact hg.1.symm
            subst hgnil
            rw [levels_cons plus_ne_slash hg, ht]
            have hend : t = [] ↔ u = [] ∧ us = [] := by
              rw [← levels_eq_singleton_nil, ht, List.cons.injEq]
            cases t with
            | nil =>
                obtain ⟨rfl, rfl⟩ := hend.mp rfl
                simp [h.topicEnd _ _ plus_ne_hash, codeLevels]
            | cons d t =>
                have hne : ¬(u = [] ∧ us = []) := by simp [← hend]
                rw [h.plusStep, (ih _ hv).2 (by simp) (by simp) _ _ _ _ _ hg
                  (levels_skipLevel ht)]
                simp [codeLevels, hne]
          · exact absurd ⟨Option.isSome_iff_ne_none.mpr h₁, h₂⟩ hprev
        · simp only [filterValidFrom, hhash, hplus, if_false] at hv
          obtain ⟨hstart, hinside⟩ := ih _ hv
          by_cases hslash : c = slash
          · subst hslash
            have hrest : ∀ s, walk f s = codeLevels parent hashEnd (levels f) (levels s) :=
              hstart (Or.inr rfl)
            refine ⟨fun _ t ↦ ?_, fun _ _ g gs t u us hg ht ↦ ?_⟩
            · obtain ⟨u, us, ht⟩ := exists_levels t
              rw [h.walk_slash ht hrest, levels_slash, ht]
              by_cases hu : u = []
              · simp [codeLevels, hu]
              · simp [codeLevels, hu, Ne.symm hu]
            · rw [levels_slash, List.cons.injEq] at hg
              rw [h.walk_slash ht hrest, ← hg.1, ← hg.2]
              simp [eq_comm]
          · -- a literal character: it must equal the topic's next character
            have hchar : ∀ t g gs u us, levels f = g :: gs → levels t = u :: us →
                walk (c :: f) t =
                  (decide (c :: g = u) && codeLevels parent hashEnd gs us) := by
              intro t g gs u us hg ht
              cases t with
              | nil =>
                  simp only [levels_nil, List.cons.injEq] at ht
                  simp [h.topicEnd _ _ hhash, ← ht.1, hslash]
              | cons d t =>
                  rw [h.charStep _ _ _ _ hhash hplus]
                  obtain ⟨l, ls, hl⟩ := exists_levels t
                  by_cases hd : d = slash
                  · subst hd
                    rw [levels_slash, List.cons.injEq] at ht
                    simp [← ht.1, hslash]
                  · rw [levels_cons hd hl, List.cons.injEq] at ht
                    rw [hinside (by simp) (by simpa using hslash) _ _ _ _ _ hg hl,
                      ← ht.1, ← ht.2]
                    simp [Bool.and_assoc]
            obtain ⟨g, gs, hg⟩ := exists_levels f
            refine ⟨fun _ t ↦ ?_, fun _ _ g' gs' t u us hg' ht ↦ ?_⟩
            · obtain ⟨u, us, ht⟩ := exists_levels t
              rw [hchar t g gs u us hg ht, levels_cons hslash hg, ht]
              simp [codeLevels, hhash, hplus]
            · rw [levels_cons hslash hg, List.cons.injEq] at hg'
              rw [hchar t g gs u us hg ht, ← hg'.1, ← hg'.2]

/-- Any copy of the walk decides a valid filter by levels. -/
theorem LevelWalk.eq_codeLevels (h : LevelWalk parent hashEnd walk) {f : CStr}
    (hf : topicFilterValid f = true) (t : CStr) :
    walk f t = codeLevels parent hashEnd (levels f) (levels t) := by
  have hv : filterValidFrom none f = true := by
    simp only [topicFilterValid] at hf
    split_ifs at hf
    exact hf
  exact (h.walk_eq f none hv).1 (Or.inl rfl) t

end LevelWalk

theorem matchFrom_levelWalk (parentRule : Bool) :
    LevelWalk parentRule true (matchFrom parentRule) where
  filterEnd t := by cases t <;> simp [matchFrom, matchWalk]
  topicEnd c f hc := by simp [matchFrom, matchWalk, hc]
  hashAtEnd := by simp [matchFrom, matchWalk]
  hashInside d t := by simp [matchFrom, matchWalk]
  plusStep f d t := by simp [matchFrom, matchWalk]
  charStep c f d t h₁ h₂ := by
    by_cases hd : c = d
    · subst hd
      simp [matchFrom, matchWalk, h₁, h₂]
    · simp [matchFrom, matchWalk, h₁, h₂, hd]

/-- A valid filter whose first character is `+` has `+` as its first level. -/
theorem head_levels_of_valid {f : CStr} (hf : topicFilterValid f = true) {w : UInt8}
    (hw : w = plus ∨ w = hash) : (levels f).head? = some [w] ↔ f.head? = some w := by
  cases f with
  | nil => simp [topicFilterValid] at hf
  | cons c f =>
      have hv : filterValidFrom none (c :: f) = true := by simpa [topicFilterValid] using hf
      have hws : w ≠ slash := by rcases hw with rfl | rfl <;> decide
      by_cases hslash : c = slash
      · subst hslash
        simp [levels_slash, Ne.symm hws]
      · obtain ⟨g, gs, hg⟩ := exists_levels f
        rw [levels_cons hslash hg]
        suffices c = w → g = [] by
          simp only [List.head?_cons, Option.some.injEq, List.cons.injEq]
          exact ⟨And.left, fun h ↦ ⟨h, this h⟩⟩
        rintro rfl
        have hnext : f = [] ∨ ∃ f', f = slash :: f' := by
          rcases hw with rfl | rfl
          · simp only [filterValidFrom, plus_ne_hash, if_false, if_true] at hv
            split_ifs at hv with _ hrest
            cases f with
            | nil => exact Or.inl rfl
            | cons d f => exact Or.inr ⟨f, by simpa using hrest⟩
          · simp only [filterValidFrom, if_true] at hv
            split_ifs at hv with hrest
            exact Or.inl (by simpa using hrest)
        rcases hnext with rfl | ⟨f', rfl⟩
        · simpa [levels_nil, eq_comm] using (List.cons.inj hg).1
        · rw [levels_slash, List.cons.injEq] at hg
          exact hg.1.symm

theorem dollarGuard_iff {f : CStr} (hf : topicFilterValid f = true) (t : CStr) :
    dollarGuard f t = true ↔ dollarTopic f t := by
  simp [dollarGuard, dollarTopic, head_levels_of_valid hf]

/-- `topic_match` by levels: the definition, less a `+` at an empty end. -/
theorem topicMatch_iff {f : CStr} (hf : topicFilterValid f = true) (t : CStr) :
    topicMatch f t = true ↔
      filterMatches f t = true ∧ ¬ wildAtEmptyEnd plus (levels f) (levels t) := by
  have hwalk := (matchFrom_levelWalk true).eq_codeLevels hf t
  by_cases hd : dollarTopic f t
  · simp [topicMatch, filterMatches, (dollarGuard_iff hf t).mpr hd, hd]
  · have hg : ¬ dollarGuard f t = true := (dollarGuard_iff hf t).not.mpr hd
    simp [topicMatch, filterMatches, hg, hd, hwalk, codeLevels_iff]

/-- `topic_match` decides MQTT matching exactly when the filter does not need
a `+` to match an empty last level of the topic. -/
theorem topicMatch_eq_filterMatches_iff (filter topic : CStr)
    (hf : topicFilterValid filter = true) :
    topicMatch filter topic = filterMatches filter topic ↔
      ¬(filterMatches filter topic = true ∧
        wildAtEmptyEnd plus (levels filter) (levels topic)) := by
  have h := topicMatch_iff hf topic
  cases hm : topicMatch filter topic <;> cases hs : filterMatches filter topic <;>
    simp_all

/-- The filter `a/+` and the topic `a/b`. -/
theorem topicMatch_eq_filterMatches_inner :
    topicMatch [97, slash, plus] [97, slash, 98] =
      filterMatches [97, slash, plus] [97, slash, 98] :=
  (topicMatch_eq_filterMatches_iff [97, slash, plus] [97, slash, 98] (by decide)).mpr
    (by decide)

/-- The filter `a/+` and the topic `a/`, whose levels are `a` and the empty level. -/
theorem topicMatch_misses_empty_level :
    ¬ ∀ filter topic : CStr, topicFilterValid filter = true → topic ≠ [] →
      hasWildcard topic = false → topicMatch filter topic = filterMatches filter topic := by
  intro h
  exact absurd (h [97, slash, plus] [97, slash] (by decide) (by decide) (by decide)) (by decide)

end MqttBroker
