import MqttBroker.Mesh.Forwarding

/-!
# Publishes that go round in circles

A broker forwards a publish once, as long as its slot in the seen cache is not
taken by another publish.  Then every run of the network ends.
-/

namespace MqttBroker

open Observer

variable {cfg : Config} {N : Type}

/-- What an observer of the network notes. -/
structure ForwardNotes where
  /-- origin and number of the frames sent so far -/
  keys : List SeenMsg
  publishes : ℕ
  delivered : ℕ
  evictions : ℕ

def ForwardNotes.start : ForwardNotes := ⟨[], 0, 0, 0⟩

/-- A frame that is not known takes the slot of another publish. -/
def evicts (s : ForwardState cfg N) (keys : List SeenMsg) : PeerEvent N → Bool
  | .publish _ _ _ _ => false
  | .deliver i _ => s.flight[i]?.any fun f ↦
      s.Unseen f && s.seen f.dst (seenIndex cfg f.msg.key) ∈ keys

/-- The network with its observer. -/
def forwarding [DecidableEq N] (net : P2pNet cfg N) :
    System (ForwardState cfg N) (PeerEvent N) ForwardNotes where
  step s e := forward net s e
  note s e n := {
    keys := n.keys ++ (sentBy net s e).map (·.msg.key)
    publishes := n.publishes + match e with
      | .publish _ _ _ _ => 1
      | .deliver _ _ => 0
    delivered := n.delivered + match e with
      | .publish _ _ _ _ => 0
      | .deliver _ _ => 1
    evictions := n.evictions + if evicts s n.keys e then 1 else 0 }

/-- A delivery in which no publish takes the slot of another. -/
def UndisturbedDelivery (s : ForwardState cfg N) (n : ForwardNotes) (e : PeerEvent N) : Prop :=
  e.IsDelivery ∧ evicts s n.keys e = false

/-- The slots of all caches that do not hold a publish sent so far. -/
def foreignSlots [Fintype N] (s : ForwardState cfg N) (keys : List SeenMsg) : ℕ :=
  ∑ n : N, (DirectMapped.foreign {k | k ∈ keys} (s.seen n)).card

variable [Fintype N]

theorem foreignSlots_le (s : ForwardState cfg N) (keys : List SeenMsg) :
    foreignSlots s keys ≤ Fintype.card N * 2 ^ cfg.seenBits := by
  have hslots : ∀ n ∈ (Finset.univ : Finset N),
      (DirectMapped.foreign {k | k ∈ keys} (s.seen n)).card ≤ 2 ^ cfg.seenBits := by
    intro n _
    simpa using Finset.card_le_univ (DirectMapped.foreign {k | k ∈ keys} (s.seen n))
  simpa [foreignSlots] using Finset.sum_le_card_nsmul _ _ _ hslots

theorem foreignSlots_anti (s : ForwardState cfg N) {keys keys' : List SeenMsg}
    (h : keys ⊆ keys') : foreignSlots s keys' ≤ foreignSlots s keys :=
  Finset.sum_le_sum fun _ _ ↦ Finset.card_le_card (DirectMapped.foreign_anti fun _ hk ↦ h hk)

/-- What a run keeps: no more frames than the publishes and the slots taken account for. -/
structure Accounted (s : ForwardState cfg N) (n : ForwardNotes) : Prop where
  flight_keys : ∀ f ∈ s.flight, f.msg.key ∈ n.keys
  conserved : n.delivered + s.flight.length = n.keys.length
  bounded : n.keys.length + foreignSlots s n.keys * cfg.peerMax ≤
    (n.publishes + n.evictions + Fintype.card N * 2 ^ cfg.seenBits) * cfg.peerMax

variable [DecidableEq N] {net : P2pNet cfg N} {s s' : ForwardState cfg N} {n : ForwardNotes}
  {e : PeerEvent N}

/-- The slots after a frame has been handled. -/
theorem foreignSlots_deliver {f : PeerFrame N} {flight : List (PeerFrame N)} {keys : List SeenMsg}
    (hkey : f.msg.key ∈ keys) :
    let s' : ForwardState cfg N := { s with
      seen := Function.update s.seen f.dst (seenBefore (s.seen f.dst) f.msg).2
      flight := flight }
    let gained := if s.Unseen f ∧ s.seen f.dst (seenIndex cfg f.msg.key) ∉ keys then 1 else 0
    foreignSlots s' keys + gained ≤ foreignSlots s keys := by
  intro s' gained
  let count := fun c : SeenCache cfg ↦ (DirectMapped.foreign {k | k ∈ keys} c).card
  have hsplit : ∀ seen : N → SeenCache cfg, ∑ n : N, count (seen n) =
      count (seen f.dst) + ∑ n ∈ Finset.univ.erase f.dst, count (seen n) := fun seen ↦
    (Finset.add_sum_erase _ _ (Finset.mem_univ f.dst)).symm
  have hself : s'.seen f.dst = (DirectMapped.visit (seenIndex cfg) (s.seen f.dst) f.msg.key).2 := by
    rw [← seenBefore_eq_visit]
    exact Function.update_self _ _ _
  have hothers : ∑ n ∈ Finset.univ.erase f.dst, count (s'.seen n) =
      ∑ n ∈ Finset.univ.erase f.dst, count (s.seen n) := by
    refine Finset.sum_congr rfl fun n hn ↦ ?_
    rw [show s'.seen n = s.seen n from Function.update_of_ne (Finset.ne_of_mem_erase hn) _ _]
  have hown : count (s'.seen f.dst) + gained ≤ count (s.seen f.dst) := by
    rw [hself]
    unfold gained
    split_ifs with hslot
    · exact DirectMapped.card_foreign_visit_lt (S := {k | k ∈ keys}) hkey hslot.2
    · have hsub : DirectMapped.foreign {k | k ∈ keys}
          (DirectMapped.visit (seenIndex cfg) (s.seen f.dst) f.msg.key).2 ⊆
            DirectMapped.foreign {k | k ∈ keys} (s.seen f.dst) :=
        DirectMapped.foreign_visit_subset hkey
      exact Finset.card_le_card hsub
  have h₁ : foreignSlots s keys = _ := hsplit s.seen
  have h₂ : foreignSlots s' keys = _ := hsplit s'.seen
  omega

theorem accounted_step (h : Accounted s n)
    (hstep : forward net s e = some s') : Accounted s' ((forwarding net).note s e n) := by
  have hsent : (sentBy net s e).length ≤ cfg.peerMax := sentBy_le e
  cases e with
  | publish m pub owner ok =>
      cases hstep
      refine ⟨fun f hf ↦ ?_, ?_, ?_⟩
      · rcases List.mem_append.mp hf with hf | hf
        · exact List.mem_append_left _ (h.flight_keys f hf)
        · exact List.mem_append_right _ (List.mem_map_of_mem hf)
      · have hconserved := h.conserved
        simp only [forwarding, List.length_append, List.length_map]
        omega
      · have hbounded := h.bounded
        have hanti := foreignSlots_anti s (List.subset_append_left n.keys
          ((sentBy net s (.publish m pub owner ok)).map (·.msg.key)))
        have hmul := Nat.mul_le_mul_right cfg.peerMax hanti
        change (n.keys ++ (sentBy net s (.publish m pub owner ok)).map (·.msg.key)).length +
          foreignSlots s (n.keys ++ (sentBy net s (.publish m pub owner ok)).map (·.msg.key)) *
            cfg.peerMax ≤ (n.publishes + 1 + (n.evictions + 0) + _) * cfg.peerMax
        simp only [List.length_append, List.length_map, add_mul, one_mul] at hbounded ⊢
        omega
  | deliver i ok =>
      obtain ⟨f, hf, rfl⟩ := deliver_cases hstep
      have hkey := h.flight_keys f (List.mem_of_getElem? hf)
      have hsentBy : sentBy net s (.deliver i ok) = s.relayed net f ok := by simp [sentBy, hf]
      have hkeys : n.keys ⊆ n.keys ++ (s.relayed net f ok).map (·.msg.key) :=
        List.subset_append_left _ _
      rw [hsentBy] at hsent
      refine ⟨fun g hg ↦ ?_, ?_, ?_⟩
      · simp only [forwarding, hsentBy]
        rcases List.mem_append.mp hg with hg | hg
        · exact List.mem_append_left _ (h.flight_keys g (List.mem_of_mem_eraseIdx hg))
        · exact List.mem_append_right _ (List.mem_map_of_mem hg)
      · have hconserved := h.conserved
        have hlen := (List.getElem?_eq_some_iff.mp hf).1
        simp only [forwarding, hsentBy, List.length_append, List.length_map,
          List.length_eraseIdx_of_lt hlen]
        omega
      · have hbounded := h.bounded
        have hslots : foreignSlots ({ s with
            seen := Function.update s.seen f.dst (seenBefore (s.seen f.dst) f.msg).2
            flight := s.flight.eraseIdx i ++ s.relayed net f ok } : ForwardState cfg N) n.keys
              + _ ≤ _ :=
          foreignSlots_deliver hkey
        have hanti := foreignSlots_anti { s with
          seen := Function.update s.seen f.dst (seenBefore (s.seen f.dst) f.msg).2
          flight := s.flight.eraseIdx i ++ s.relayed net f ok } hkeys
        have hmul := Nat.mul_le_mul_right cfg.peerMax
          (le_trans (Nat.add_le_add_right hanti _) hslots)
        have hevicts : evicts s n.keys (.deliver i ok) =
            (decide (s.Unseen f) && decide (s.seen f.dst (seenIndex cfg f.msg.key) ∈ n.keys)) := by
          simp [evicts, hf]
        simp only [forwarding, hsentBy, hevicts, List.length_append, List.length_map, add_zero]
        rw [add_mul] at hmul
        -- a frame that is passed on either takes a slot or is an eviction
        by_cases hunseen : s.Unseen f
        · by_cases hslot : s.seen f.dst (seenIndex cfg f.msg.key) ∈ n.keys
          · simp only [hunseen, hslot, decide_true, Bool.and_self, if_true, not_true_eq_false,
              and_false, if_false, zero_mul, add_mul, one_mul] at hmul hbounded ⊢
            omega
          · simp only [hunseen, hslot, decide_true, decide_false, Bool.and_false,
              Bool.false_eq_true, not_false_eq_true, and_self, if_true, if_false, one_mul,
              add_zero] at hmul hbounded ⊢
            omega
        · have hnone : s.relayed net f ok = [] := if_pos (.inl fun h ↦ hunseen h.1)
          simp only [hnone, hunseen, decide_false, Bool.false_and, Bool.false_eq_true, false_and,
            if_false, zero_mul, add_zero, List.length_nil, List.map_nil] at hmul ⊢
          omega

/-- In every network, with cycles or not, from brokers with any caches and
nothing under way: the number of frames sent is bounded in the number of
publishes and the number of times that a publish took the slot of another, and
from no state do deliveries go on for ever in which none does. -/
theorem undisturbed_forwarding_ends {s₀ : ForwardState cfg N} (hstart : s₀.flight = [])
    (h : Reach (forwarding net) (fun _ _ _ ↦ True) s₀ .start s n) :
    n.keys.length ≤
      (n.publishes + n.evictions + Fintype.card N * 2 ^ cfg.seenBits) * cfg.peerMax ∧
      ¬ Endless (forwarding net) UndisturbedDelivery (s, n) := by
  have hinv : ∀ {s n}, Reach (forwarding net) (fun _ _ _ ↦ True) s₀ .start s n →
      Accounted s n := by
    intro s n h
    refine h.invariant ⟨?_, ?_, ?_⟩ fun _ hI _ hstep ↦ accounted_step hI hstep
    · simp [hstart]
    · simp [hstart, ForwardNotes.start]
    · have hle := Nat.mul_le_mul_right cfg.peerMax (foreignSlots_le s₀ [])
      simpa [ForwardNotes.start] using hle
  refine ⟨(Nat.le_add_right _ _).trans (hinv h).bounded, ?_⟩
  rintro ⟨σ, ε, hzero, hstep⟩
  have hrun : ∀ k, Reach (forwarding net) (fun _ _ _ ↦ True) s₀ .start (σ k).1 (σ k).2 ∧
      (σ k).2.publishes = n.publishes ∧ (σ k).2.evictions = n.evictions ∧
        (σ k).2.delivered = n.delivered + k := by
    intro k
    induction k with
    | zero =>
        rw [hzero]
        exact ⟨h, rfl, rfl, rfl⟩
    | succ k ih =>
        obtain ⟨hreach, hpub, hevictions, hdel⟩ := ih
        obtain ⟨⟨hdelivery, hkept⟩, hs, hn⟩ := hstep k
        rw [hn]
        refine ⟨hreach.step trivial hs, ?_, ?_, ?_⟩
        all_goals
          cases hek : ε k with
          | publish => simp [hek, PeerEvent.IsDelivery] at hdelivery
          | deliver =>
              rw [hek] at hkept
              simp [forwarding, hkept, hpub, hevictions, hdel, add_assoc]
  obtain ⟨hreach, hpub, hevictions, hdel⟩ := hrun
    ((n.publishes + n.evictions + Fintype.card N * 2 ^ cfg.seenBits) * cfg.peerMax + 1)
  have hbounded := (hinv hreach).bounded
  have hconserved := (hinv hreach).conserved
  rw [hpub, hevictions] at hbounded
  omega

/-! ## Two publishes in one slot -/

/-- Ids that the hash of the seen cache does not tell apart. -/
def ringId (n : Fin 3) : NodeId := fun i ↦ if i.val < 4 then 1 else UInt8.ofNat n.val

/-- Three brokers with links to each other.  Each has heard of the subscription
of the next one to the topic `/`. -/
def ring : P2pNet Config.posix (Fin 3) where
  id := ringId
  router _ := true
  routes n := ((RouteTable.init Config.posix).remoteSubscribe (ringId (n + 1)) [Ch.slash] 0
    (ringId (n + 1))).2
  peers n := [n + 1, n + 2]
  peers_le _ := (by decide : 2 ≤ 10)
  id_ne := by decide

/-- The brokers after their start. -/
def quiet : ForwardState Config.posix (Fin 3) := ⟨fun _ _ ↦ .zeroed, fun _ ↦ 0, []⟩

def publishSlash (n : Fin 3) : PeerEvent (Fin 3) :=
  .publish n ⟨[Ch.slash], [], 0, 0, 0, 0⟩ (ringId n) fun _ ↦ true

/-- The oldest frame is handled, so many times. -/
def deliverOldest (count : ℕ) : List (PeerEvent (Fin 3)) :=
  List.replicate count (.deliver 0 fun _ ↦ true)

/-- The statement at a publish that has just been sent. -/
theorem forwarding_ends_ring : ∃ s n, forward ring quiet (publishSlash 0) = some s ∧
    n.keys.length = 1 ∧ n.keys.length ≤ (n.publishes + n.evictions + 3 * 2 ^ 7) * 10 ∧
    ¬ Endless (forwarding ring) UndisturbedDelivery (s, n) := by
  have hreach : Reach (forwarding ring) (fun _ _ _ ↦ True) quiet .start _ _ :=
    Reach.start.step (e := publishSlash 0) trivial rfl
  exact ⟨_, _, rfl, by decide +kernel, undisturbed_forwarding_ends rfl hreach⟩

theorem ring_cycle : ∃ s,
    ([publishSlash 0, publishSlash 1] ++ deliverOldest 7).foldlM (forward ring) quiet = some s ∧
      (deliverOldest 6).foldlM (forward ring) s = some s := by
  let after := ([publishSlash 0, publishSlash 1] ++ deliverOldest 7).foldlM (forward ring) quiet
  have hcycle : (after.bind fun s ↦ ((deliverOldest 6).foldlM (forward ring) s).map fun s' ↦
      decide (s'.seen = s.seen ∧ s'.localSeq = s.localSeq ∧ s'.flight = s.flight)) = some true := by
    decide +kernel
  obtain ⟨s, hs, hrest⟩ := Option.bind_eq_some_iff.mp hcycle
  obtain ⟨s', hs', hsame⟩ := Option.map_eq_some_iff.mp hrest
  obtain ⟨hseen, hseq, hflight⟩ := of_decide_eq_true hsame
  obtain rfl : s' = s := by
    cases s
    cases s'
    simp_all
  exact ⟨s', hs, hs'⟩

/-- The publishes of two brokers take each other's slot on the way round for ever. -/
theorem ring_endless : ∃ s,
    ([publishSlash 0, publishSlash 1] ++ deliverOldest 7).foldlM (forward ring) quiet = some s ∧
      Endless (forwarding ring) (fun _ _ e ↦ e.IsDelivery) (s, .start) := by
  obtain ⟨s, hs, hcycle⟩ := ring_cycle
  have hne : deliverOldest 6 ≠ [] := by decide
  refine ⟨s, hs, endless_of_cycle hne ?_ hcycle⟩
  intro _ _ e he
  rw [List.eq_of_mem_replicate he]
  trivial

end MqttBroker
