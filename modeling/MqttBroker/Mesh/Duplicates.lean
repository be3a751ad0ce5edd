import MqttBroker.Mesh.Message

/-!
# Duplicate connections

Two brokers may open several TCP connections to each other.  Each of them
decides, whenever it has received the HELLO of one of these connections, which
it closes.
-/

namespace MqttBroker

variable {C : Type}

/-- What one side has done with a connection. -/
inductive ConnStatus where
  /-- its HELLO is to be handled -/
  | hello
  | connected
  | closed
  deriving DecidableEq

/-- The connections to the peer, as one side sees them. -/
abbrev PeerConns (C : Type) := C → ConnStatus

/-! ## The code -/

/-- `keep_new` in `peer_loop`. -/
def keepNew (self peer : NodeId) (outbound : Bool) : Bool :=
  if self.before peer then outbound else !outbound

section

variable [DecidableEq C] (conns : PeerConns C) (c : C)

/-- `conn_exists` with the peer's id. -/
def ConnExists : Prop := ∃ k, k ≠ c ∧ conns k = .connected

/-- `close_duplicate_conns` with the peer's id. -/
def closeDuplicateConns : PeerConns C := fun k ↦
  if k ≠ c ∧ conns k = .connected then .closed else conns k

variable [Fintype C]

instance : Decidable (ConnExists conns c) := inferInstanceAs (Decidable (∃ _, _ ∧ _))

/-- `peer_loop` from the HELLO of connection `c` until `c->connected = 1`. -/
def handleHello (self peer : NodeId) (outbound : Bool) : PeerConns C :=
  if ConnExists conns c then
    if !keepNew self peer outbound then Function.update conns c .closed
    else Function.update (closeDuplicateConns conns c) c .connected
  else Function.update conns c .connected

end

section

variable [DecidableEq C] [Fintype C] {conns : PeerConns C} {c k : C} {self peer : NodeId}
  {outbound : Bool}

theorem handleHello_keep (h : keepNew self peer outbound = true) :
    handleHello conns c self peer outbound =
      Function.update (closeDuplicateConns conns c) c .connected := by
  unfold handleHello
  split_ifs with hexists hkeep
  · simp [h] at hkeep
  · rfl
  · have hsame : closeDuplicateConns conns c = conns := by
      funext k
      unfold closeDuplicateConns
      split_ifs with hk
      · exact absurd ⟨k, hk⟩ hexists
      · rfl
    rw [hsame]

theorem handleHello_refuse (h : keepNew self peer outbound = false) (hexists : ConnExists conns c) :
    handleHello conns c self peer outbound = Function.update conns c .closed := by
  unfold handleHello
  rw [if_pos hexists, if_pos (by simp [h])]

theorem handleHello_first (h : ¬ ConnExists conns c) :
    handleHello conns c self peer outbound = Function.update conns c .connected := if_neg h

theorem handleHello_self : handleHello conns c self peer outbound c ≠ .hello := by
  unfold handleHello
  split_ifs <;> simp

/-- The connections whose HELLO is still to be handled are left alone. -/
theorem handleHello_hello (hk : k ≠ c) :
    handleHello conns c self peer outbound k = .hello ↔ conns k = .hello := by
  unfold handleHello
  split_ifs
  · rw [Function.update_of_ne hk]
  · rw [Function.update_of_ne hk]
    unfold closeDuplicateConns
    split_ifs with hconn
    · simp [hconn.2]
    · rfl
  · rw [Function.update_of_ne hk]

end

/-! ## Two brokers -/

/-- The ids of the two brokers, and which of them opened each connection. -/
structure Dialogue (C : Type) where
  id : Bool → NodeId
  opener : C → Bool
  id_ne : id false ≠ id true

namespace Dialogue

variable (d : Dialogue C)

/-- The connection was opened by the broker with the smaller id. -/
def Preferred (c : C) : Prop := (d.id (d.opener c)).before (d.id (!d.opener c)) = true

/-- The connections as both sides see them. -/
abbrev State (C : Type) := Bool → PeerConns C

def start : State C := fun _ _ ↦ .hello

/-- One step of one side.  A closed connection is noticed by the other side when
it waits for the next frame. -/
inductive Step [DecidableEq C] [Fintype C] : State C → State C → Prop where
  | hello {s : State C} (x : Bool) (c : C) (h : s x c = .hello) :
      Step s (Function.update s x
        (handleHello (s x) c (d.id x) (d.id !x) (d.opener c = x)))
  | notice {s : State C} (x : Bool) (c : C) (h : s x c = .connected)
      (hpeer : s (!x) c = .closed) :
      Step s (Function.update s x (Function.update (s x) c .closed))

/-- All HELLOs have been handled and all closed connections noticed. -/
structure Settled (s : State C) : Prop where
  handled : ∀ x c, s x c ≠ .hello
  noticed : ∀ x c, s x c = .connected → s (!x) c ≠ .closed

/-- Both brokers keep one connection, the same. -/
def Agreed (s : State C) : Prop := ∃ c, ∀ x k, s x k = .connected ↔ k = c

/-- One connection was opened by the broker with the smaller id, or none was and
there is only one. -/
def Decided : Prop :=
  (∃ c, d.Preferred c ∧ ∀ k, d.Preferred k → k = c) ∨
    (∀ c, ¬ d.Preferred c) ∧ ∃ c : C, ∀ k, k = c

variable {d}

theorem keepNew_iff {x : Bool} {c : C} :
    keepNew (d.id x) (d.id !x) (d.opener c = x) = true ↔ d.Preferred c := by
  have hcomm := NodeId.before_comm d.id_ne
  unfold keepNew Preferred
  cases x <;> cases hopener : d.opener c <;> simp [hcomm]

/-! ## Where the preference decides -/

variable [DecidableEq C] [Fintype C] {s s' : State C} {c : C}

/-- The one connection that the broker with the smaller id has opened is never
closed, and no other one stays beside it. -/
def Kept (s : State C) (c : C) : Prop :=
  ∀ x, s x c ≠ .closed ∧ (s x c = .connected → ∀ k, k ≠ c → s x k ≠ .connected)

theorem kept_step (hpref : d.Preferred c) (hone : ∀ k, d.Preferred k → k = c) (h : Kept s c)
    (hstep : d.Step s s') : Kept s' c := by
  cases hstep with
  | hello x k hk =>
      intro y
      by_cases hy : y = x
      · subst hy
        rw [Function.update_self]
        by_cases hkc : k = c
        · subst hkc
          rw [handleHello_keep (keepNew_iff.mpr hpref)]
          refine ⟨by simp, fun _ j hj ↦ ?_⟩
          rw [Function.update_of_ne hj]
          unfold closeDuplicateConns
          split_ifs with hconn
          · simp
          · exact fun hc ↦ hconn ⟨hj, hc⟩
        · have hrefuse : keepNew (d.id y) (d.id !y) (d.opener k = y) = false :=
            Bool.eq_false_iff.mpr fun hkeep ↦ hkc (hone k (keepNew_iff.mp hkeep))
          have hck : c ≠ k := fun heq ↦ hkc heq.symm
          by_cases hexists : ConnExists (s y) k
          · rw [handleHello_refuse hrefuse hexists, Function.update_of_ne hck]
            refine ⟨(h y).1, fun hconn j hj ↦ ?_⟩
            by_cases hjk : j = k
            · rw [hjk, Function.update_self]
              simp
            · rw [Function.update_of_ne hjk]
              exact (h y).2 hconn j hj
          · rw [handleHello_first hexists, Function.update_of_ne hck]
            exact ⟨(h y).1, fun hconn ↦ absurd ⟨c, hck, hconn⟩ hexists⟩
      · rw [Function.update_of_ne hy]
        exact h y
  | notice x k hk hpeer =>
      intro y
      by_cases hy : y = x
      · subst hy
        have hck : c ≠ k := fun heq ↦ (h !y).1 (heq ▸ hpeer)
        rw [Function.update_self, Function.update_of_ne hck]
        refine ⟨(h y).1, fun hconn j hj ↦ ?_⟩
        by_cases hjk : j = k
        · rw [hjk, Function.update_self]
          simp
        · rw [Function.update_of_ne hjk]
          exact (h y).2 hconn j hj
      · rw [Function.update_of_ne hy]
        exact h y

/-- An only connection is never closed. -/
theorem only_step (hone : ∀ k : C, k = c) (h : ∀ x, s x c ≠ .closed) (hstep : d.Step s s') :
    ∀ x, s' x c ≠ .closed := by
  cases hstep with
  | hello x k hk =>
      intro y
      by_cases hy : y = x
      · subst hy
        have hno : ¬ ConnExists (s y) k := fun ⟨j, hj, _⟩ ↦ hj ((hone j).trans (hone k).symm)
        rw [Function.update_self, handleHello_first hno, hone k, Function.update_self]
        simp
      · rw [Function.update_of_ne hy]
        exact h y
  | notice x k hk hpeer =>
      rw [hone k] at hpeer
      exact absurd hpeer (h _)

theorem agreed_of_decided (h : d.Decided) (hrun : Relation.ReflTransGen d.Step start s)
    (hsettled : Settled s) : Agreed s := by
  have hconnected : ∀ {c x}, s x c ≠ .closed → s x c = .connected := by
    intro c x hopen
    cases hstatus : s x c with
    | hello => exact absurd hstatus (hsettled.handled x c)
    | connected => rfl
    | closed => exact absurd hstatus hopen
  rcases h with ⟨c, hpref, hone⟩ | ⟨-, c, hone⟩
  · have hkept : Kept s c := by
      clear hsettled hconnected
      induction hrun with
      | refl => exact fun x ↦ ⟨by simp [start], fun h ↦ by simp [start] at h⟩
      | tail _ hstep ih => exact kept_step hpref hone ih hstep
    refine ⟨c, fun x k ↦ ⟨fun hk ↦ ?_, ?_⟩⟩
    · by_contra hkc
      exact (hkept x).2 (hconnected (hkept x).1) k hkc hk
    · rintro rfl
      exact hconnected (hkept x).1
  · have hopen : ∀ x, s x c ≠ .closed := by
      clear hsettled hconnected
      induction hrun with
      | refl => simp [start]
      | tail _ hstep ih => exact only_step hone ih hstep
    exact ⟨c, fun x k ↦ ⟨fun _ ↦ hone k, fun _ ↦ hone k ▸ hconnected (hopen x)⟩⟩

/-! ## Where the order decides -/

/-- The HELLOs of these connections are handled in this order. -/
def handleAll (d : Dialogue C) (x : Bool) (conns : PeerConns C) (order : List C) : PeerConns C :=
  order.foldl (fun conns c ↦ handleHello conns c (d.id x) (d.id !x) (d.opener c = x)) conns

theorem reach_handleAll (x : Bool) {order : List C} (hnodup : order.Nodup)
    (hello : ∀ c ∈ order, s x c = .hello) :
    Relation.ReflTransGen d.Step s (Function.update s x (handleAll d x (s x) order)) := by
  induction order generalizing s with
  | nil =>
      rw [handleAll, List.foldl_nil, Function.update_eq_self]
  | cons c rest ih =>
      obtain ⟨hc, hrest⟩ := List.nodup_cons.mp hnodup
      have hfirst := Step.hello (d := d) x c (hello c List.mem_cons_self)
      have hnext := ih (s := Function.update s x
        (handleHello (s x) c (d.id x) (d.id !x) (d.opener c = x))) hrest fun k hk ↦ by
          have hkc : k ≠ c := fun h ↦ hc (by rwa [← h])
          rw [Function.update_self, handleHello_hello hkc]
          exact hello k (List.mem_cons_of_mem _ hk)
      rw [Function.update_self, Function.update_idem] at hnext
      exact .head hfirst hnext

theorem handleAll_handled {x : Bool} {conns : PeerConns C} {order : List C} {k : C}
    (h : k ∈ order ∨ conns k ≠ .hello) : handleAll d x conns order k ≠ .hello := by
  induction order generalizing conns with
  | nil => exact h.resolve_left (by simp)
  | cons c rest ih =>
      refine ih ?_
      rcases h with h | h
      · rcases List.mem_cons.mp h with rfl | h
        · exact .inr handleHello_self
        · exact .inl h
      · by_cases hk : k = c
        · rw [hk]
          exact .inr handleHello_self
        · exact .inr fun heq ↦ h ((handleHello_hello hk).mp heq)

/-- With no preferred connection the first one stays. -/
theorem handleAll_refused (hnone : ∀ k, ¬ d.Preferred k) {x : Bool} {conns : PeerConns C}
    (hc : conns c = .connected) {rest : List C} (hrest : c ∉ rest) (k : C) :
    handleAll d x conns rest k = if k ∈ rest then .closed else conns k := by
  induction rest generalizing conns with
  | nil => rfl
  | cons j rest ih =>
      rw [List.mem_cons, not_or] at hrest
      have hrefuse : keepNew (d.id x) (d.id !x) (d.opener j = x) = false :=
        Bool.eq_false_iff.mpr fun hkeep ↦ hnone j (keepNew_iff.mp hkeep)
      have hstep : handleHello conns j (d.id x) (d.id !x) (d.opener j = x) =
          Function.update conns j .closed := handleHello_refuse hrefuse ⟨c, hrest.1, hc⟩
      have hc' : Function.update conns j .closed c = .connected := by
        rw [Function.update_of_ne hrest.1, hc]
      change handleAll d x (handleHello conns j _ _ _) rest k = _
      rw [hstep, ih hc' hrest.2]
      by_cases hk : k = j
      · subst hk
        simp
      · simp [hk]

/-- Only connection `c` is left. -/
def only (c : C) : PeerConns C := fun k ↦ if k = c then .connected else .closed

/-- A side can come to keep any preferred connection, and any at all if none is. -/
theorem exists_order (x : Bool) (h : d.Preferred c ∨ ∀ k, ¬ d.Preferred k) :
    ∃ order : List C, order.Nodup ∧ handleAll d x (fun _ ↦ .hello) order = only c := by
  let others := (Finset.univ.erase c).toList
  have hmem : ∀ k, k ∈ others ↔ k ≠ c := by simp [others]
  have hnodup : others.Nodup := Finset.nodup_toList _
  rcases h with hpref | hnone
  · refine ⟨others ++ [c], ?_, funext fun k ↦ ?_⟩
    · exact hnodup.append (List.nodup_singleton c) (by simp [hmem])
    · have hlast : handleAll d x (fun _ ↦ .hello) (others ++ [c]) =
          handleHello (handleAll d x (fun _ ↦ .hello) others) c (d.id x) (d.id !x)
            (d.opener c = x) := by
        simp [handleAll]
      rw [hlast, handleHello_keep (keepNew_iff.mpr hpref)]
      by_cases hk : k = c
      · subst hk
        simp [only]
      · have hhandled : handleAll d x (fun _ ↦ .hello) others k ≠ .hello :=
          handleAll_handled (.inl ((hmem k).mpr hk))
        rw [Function.update_of_ne hk, only, if_neg hk, closeDuplicateConns]
        cases hstatus : handleAll d x (fun _ ↦ .hello) others k with
        | hello => exact absurd hstatus hhandled
        | connected => simp [hk]
        | closed => simp
  · refine ⟨c :: others, List.nodup_cons.mpr ⟨by simp [hmem], hnodup⟩, funext fun k ↦ ?_⟩
    have hfirst : handleHello (fun _ : C ↦ .hello) c (d.id x) (d.id !x) (d.opener c = x) =
        Function.update (fun _ ↦ .hello) c .connected :=
      handleHello_first fun ⟨_, _, h⟩ ↦ (nomatch h)
    change handleAll d x (handleHello (fun _ ↦ .hello) c _ _ _) others k = _
    rw [hfirst, handleAll_refused hnone (Function.update_self c _ _) (by simp [hmem])]
    by_cases hk : k = c
    · subst hk
      simp [hmem, only]
    · simp [hmem, hk, only]

/-- Two connections that the two sides can come to keep lead to a run that
closes all connections. -/
theorem exists_disagreement {c₀ c₁ : C} (hne : c₀ ≠ c₁)
    (h₀ : d.Preferred c₀ ∨ ∀ k, ¬ d.Preferred k) (h₁ : d.Preferred c₁ ∨ ∀ k, ¬ d.Preferred k) :
    Relation.ReflTransGen d.Step start fun _ _ ↦ .closed := by
  obtain ⟨order₀, hnodup₀, hall₀⟩ := exists_order false h₀
  obtain ⟨order₁, hnodup₁, hall₁⟩ := exists_order true h₁
  have hrun₀ := reach_handleAll (d := d) (s := start) false hnodup₀ fun _ _ ↦ rfl
  have hrun₁ := reach_handleAll (d := d) (s := Function.update start false (only c₀)) true hnodup₁
    fun _ _ ↦ rfl
  rw [show handleAll d false (start false) order₀ = only c₀ from hall₀] at hrun₀
  rw [show handleAll d true (Function.update start false (only c₀) true) order₁ = only c₁ from
    hall₁] at hrun₁
  let s₁ : State C := Function.update (Function.update start false (only c₀)) true (only c₁)
  have hfalse : s₁ false = only c₀ := rfl
  have htrue : s₁ true = only c₁ := rfl
  have hclosed : ∀ c : C, Function.update (only c) c .closed = fun _ ↦ .closed := by
    intro c
    funext k
    by_cases hk : k = c
    · rw [hk, Function.update_self]
    · rw [Function.update_of_ne hk, only, if_neg hk]
  have hnotice₀ := Step.notice (d := d) (s := s₁) false c₀ (by simp [hfalse, only])
    (by simp [htrue, only, hne])
  have hnotice₁ := Step.notice (d := d)
    (s := Function.update s₁ false (Function.update (s₁ false) c₀ .closed)) true c₁
    (by simp [htrue, only]) (by simp [hfalse, hclosed])
  have hend : Function.update (Function.update s₁ false (Function.update (s₁ false) c₀ .closed)) true
      (Function.update (Function.update s₁ false (Function.update (s₁ false) c₀ .closed) true) c₁
        .closed) = fun _ _ ↦ .closed := by
    funext x
    cases x
    · simp [hfalse, hclosed]
    · simp [htrue, hclosed]
  rw [hend] at hnotice₁
  exact ((hrun₀.trans hrun₁).tail hnotice₀).tail hnotice₁

omit [DecidableEq C] [Fintype C] in
theorem not_agreed_closed : ¬ Agreed (fun _ _ ↦ .closed : State C) := by
  rintro ⟨c, h⟩
  have hc := (h true c).mpr rfl
  cases hc

/-- For any two brokers and any number of connections between them: in every run
in which all HELLOs are handled and all closed connections noticed both keep the
same one, if and only if the broker with the smaller id has opened exactly one of
them, or none and the other exactly one. -/
theorem agreed_iff_decided (d : Dialogue C) :
    (∀ s, Relation.ReflTransGen d.Step start s → Settled s → Agreed s) ↔ d.Decided := by
  refine ⟨fun h ↦ ?_, fun h s hrun hsettled ↦ agreed_of_decided h hrun hsettled⟩
  have hno : ∀ {c₀ c₁ : C}, c₀ ≠ c₁ → (d.Preferred c₀ ∨ ∀ k, ¬ d.Preferred k) →
      (d.Preferred c₁ ∨ ∀ k, ¬ d.Preferred k) → False := fun hne h₀ h₁ ↦
    not_agreed_closed (h _ (exists_disagreement hne h₀ h₁) ⟨by simp, by simp⟩)
  by_cases hpref : ∃ c, d.Preferred c
  · obtain ⟨c, hc⟩ := hpref
    refine .inl ⟨c, hc, fun k hk ↦ ?_⟩
    by_contra hkc
    exact hno hkc (.inl hk) (.inl hc)
  · push Not at hpref
    refine .inr ⟨hpref, ?_⟩
    by_cases hconn : Nonempty C
    · obtain ⟨c⟩ := hconn
      refine ⟨c, fun k ↦ ?_⟩
      by_contra hkc
      exact hno hkc (.inr hpref) (.inr hpref)
    · have hempty : ∀ c : C, False := fun c ↦ hconn ⟨c⟩
      obtain ⟨c, -⟩ := h start .refl ⟨fun _ c ↦ (hempty c).elim, fun _ c ↦ (hempty c).elim⟩
      exact (hempty c).elim

/-- Two connections that the broker with the smaller id has opened. -/
def twoOpened : Dialogue (Fin 2) where
  id x := fun _ ↦ if x then 2 else 1
  opener _ := false
  id_ne := by decide

/-- Each broker keeps the connection whose HELLO it handles last, and closes the
one that the other keeps. -/
theorem twoOpened_all_closed :
    Relation.ReflTransGen twoOpened.Step start (fun _ _ ↦ .closed) ∧
      Settled (fun _ _ ↦ .closed : State (Fin 2)) ∧
        ¬ Agreed (fun _ _ ↦ .closed : State (Fin 2)) := by
  have hpref : ∀ c, twoOpened.Preferred c := by
    intro c
    unfold Preferred
    decide +revert
  exact ⟨exists_disagreement (show (0 : Fin 2) ≠ 1 by decide) (.inl (hpref 0)) (.inl (hpref 1)),
    ⟨by simp, by simp⟩, not_agreed_closed⟩

end Dialogue

end MqttBroker
