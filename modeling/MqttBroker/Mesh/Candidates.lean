import MqttBroker.Lib.SelectionSort
import MqttBroker.Mesh.Shard

/-!
# Whom to connect to

The part of `connect_loop` that picks routers of the peer table, with
`peer_affinity` and `peer_priority`.  The candidates and their priorities lie in
two arrays that are sorted together.
-/

namespace MqttBroker

variable {cfg : Config}

/-! ## The code -/

/-- What an `int32_t` holds after an operation with this result, where overflow wraps around. -/
def int32 (x : ℤ) : ℤ := x.bmod (2 ^ 32)

/-- `peer_affinity` -/
def peerAffinity (selfId peerId : NodeId) : UInt32 :=
  fnv1a32Update (fnv1a32Update 2166136261 (List.ofFn selfId)) (List.ofFn peerId)

/-- `affinity & 0x7ffu` -/
def affinityOf (selfId : NodeId) (peer : P2pPeerScore) : ℕ :=
  (peerAffinity selfId peer.nodeId &&& 0x7ff).toNat

/-- `peer_priority` -/
def peerPriority (selfId : NodeId) (peer : P2pPeerScore) : ℤ :=
  int32 (int32 (peer.score * 256) - affinityOf selfId peer)

/-- `candidates` and `priorities`, with so many entries. -/
structure CandidateArrays (n : ℕ) where
  candidates : Fin n → P2pPeerScore
  priorities : Fin n → ℤ

namespace CandidateArrays

variable {n : ℕ} (arrays : CandidateArrays n)

/-- The test in the inner loop. -/
def better (j best : Fin n) : Bool :=
  arrays.priorities best < arrays.priorities j ||
    arrays.priorities j = arrays.priorities best &&
      (arrays.candidates j).nodeId.before (arrays.candidates best).nodeId

/-- The inner loop. -/
def best (i : Fin n) : Fin n :=
  ((List.finRange n).filter (i < ·)).foldl
    (fun best j ↦ if arrays.better j best then j else best) i

/-- The body of the outer loop. -/
def round (i : Fin n) : CandidateArrays n :=
  let best := arrays.best i
  if best ≠ i then
    ⟨arrays.candidates ∘ Equiv.swap i best, arrays.priorities ∘ Equiv.swap i best⟩
  else arrays

def sorted : CandidateArrays n := (List.finRange n).foldl round arrays

end CandidateArrays

/-- The candidates after the sort. -/
def connectOrder (selfId : NodeId) (candidates : List P2pPeerScore) : List P2pPeerScore :=
  List.ofFn (CandidateArrays.sorted ⟨candidates.get, fun i ↦
    peerPriority selfId (candidates.get i)⟩).candidates

/-- The candidates for which the last loop calls `connect_to_peer`, with so many connected. -/
def connectTries (connectToPeer : P2pPeerScore → ℤ) (budget : ℤ) :
    ℤ → List P2pPeerScore → List P2pPeerScore
  | _, [] => []
  | connected, c :: cs =>
      if connected < budget then
        c :: connectTries connectToPeer budget (connected + connectToPeer c) cs
      else []

namespace P2pState

variable (st : P2pState cfg) (hasConnTo : NodeId → Bool)

/-- The entries of `p2p_election_snapshot` that become candidates. -/
def candidates : List P2pPeerScore :=
  st.nodesInUse.filter fun p ↦
    p.role = P2pRole.router.toByte ∧ p.nodeId ≠ st.selfId ∧ !hasConnTo p.nodeId

end P2pState

/-! ## The sort -/

/-- A higher priority first, the smaller id on ties. -/
def rankKey (e : P2pPeerScore × ℤ) : ℤᵒᵈ ×ₗ List ℕ := RankEntry.key (e.1.nodeId, e.2)

def rankBetter (a b : P2pPeerScore × ℤ) : Bool :=
  b.2 < a.2 || a.2 = b.2 && a.1.nodeId.before b.1.nodeId

theorem rankBetter_follows : SelectionSort.Follows rankBetter rankKey := by
  intro a b
  rw [rankKey, rankKey, ← RankEntry.precedes_iff, RankEntry.Precedes, rankBetter]
  simp

namespace CandidateArrays

variable {n : ℕ} (arrays : CandidateArrays n)

/-- The entries of both arrays. -/
def entries (i : Fin n) : P2pPeerScore × ℤ := (arrays.candidates i, arrays.priorities i)

theorem entries_round (i : Fin n) :
    (arrays.round i).entries = SelectionSort.pass rankBetter arrays.entries i := by
  have hbest : arrays.best i = SelectionSort.bestFrom rankBetter arrays.entries i := rfl
  rw [round, SelectionSort.pass, ← hbest]
  split_ifs with hne
  · rfl
  · rw [not_not.mp hne, Equiv.swap_self]
    rfl

/-- The two arrays are sorted as one array of pairs. -/
theorem entries_sorted : arrays.sorted.entries = SelectionSort.sort rankBetter arrays.entries := by
  rw [sorted, SelectionSort.sort]
  generalize List.finRange n = is
  induction is generalizing arrays with
  | nil => rfl
  | cons i is ih => rw [List.foldl_cons, List.foldl_cons, ih, entries_round]

end CandidateArrays

section Order

variable (selfId : NodeId) (candidates : List P2pPeerScore)

/-- A candidate with its priority. -/
def withPriority (c : P2pPeerScore) : P2pPeerScore × ℤ := (c, peerPriority selfId c)

/-- The arrays before the sort. -/
def candidateArrays : CandidateArrays candidates.length :=
  ⟨candidates.get, fun i ↦ peerPriority selfId (candidates.get i)⟩

theorem sorted_entries_perm : (List.ofFn (candidateArrays selfId candidates).sorted.entries).Perm
    (candidates.map (withPriority selfId)) := by
  rw [CandidateArrays.entries_sorted]
  refine (SelectionSort.sort_perm _ _).trans (List.Perm.of_eq ?_)
  exact List.ofFn_getElem_eq_map candidates (withPriority selfId)

/-- A candidate keeps its priority. -/
theorem sorted_entries_eq : List.ofFn (candidateArrays selfId candidates).sorted.entries =
    (connectOrder selfId candidates).map (withPriority selfId) := by
  rw [connectOrder, List.map_ofFn]
  congr 1
  funext i
  have hmem := (sorted_entries_perm selfId candidates).mem_iff.mp
    (List.mem_ofFn.mpr ⟨i, rfl⟩)
  obtain ⟨c, -, hc⟩ := List.mem_map.mp hmem
  calc (candidateArrays selfId candidates).sorted.entries i = withPriority selfId c := hc.symm
    _ = withPriority selfId ((candidateArrays selfId candidates).sorted.candidates i) :=
        congrArg (withPriority selfId) (congrArg Prod.fst hc)

theorem connectOrder_perm : (connectOrder selfId candidates).Perm candidates := by
  have hperm := (sorted_entries_perm selfId candidates).map Prod.fst
  rw [sorted_entries_eq, List.map_map, List.map_map] at hperm
  have hfst : Prod.fst ∘ withPriority selfId = id := rfl
  rwa [hfst, List.map_id, List.map_id] at hperm

theorem connectOrder_pairwise : (connectOrder selfId candidates).Pairwise fun a b ↦
    rankKey (withPriority selfId a) ≤ rankKey (withPriority selfId b) := by
  rw [← List.pairwise_map (f := withPriority selfId) (R := fun a b ↦ rankKey a ≤ rankKey b),
    ← sorted_entries_eq, CandidateArrays.entries_sorted]
  exact rankBetter_follows.sort_pairwise _

end Order

/-- The candidates that are tried are the first ones of the order. -/
theorem connectTries_prefix (connectToPeer : P2pPeerScore → ℤ) (budget connected : ℤ)
    (order : List P2pPeerScore) : connectTries connectToPeer budget connected order <+: order := by
  induction order generalizing connected with
  | nil => exact List.prefix_rfl
  | cons c cs ih =>
      rw [connectTries]
      split_ifs
      · exact (List.prefix_cons_inj c).mpr (ih _)
      · exact List.nil_prefix

/-- Of two entries, the one that may not stand behind the other is in each prefix that the
other is in, and before it. -/
theorem sublist_of_pairwise {α : Type} {r : α → α → Prop} {order tries : List α}
    (hr : order.Pairwise r) (htries : tries <+: order) {a b : α} (ha : a ∈ order)
    (hne : a ≠ b) (hba : ¬ r b a) (hb : b ∈ tries) : [a, b].Sublist tries := by
  obtain ⟨rest, rfl⟩ := htries
  obtain ⟨front, back, rfl⟩ := List.append_of_mem hb
  rw [List.append_assoc, List.cons_append, List.pairwise_append, List.pairwise_cons] at hr
  rw [List.append_assoc, List.cons_append, List.mem_append, List.mem_cons] at ha
  rcases ha with ha | rfl | ha
  · exact (List.singleton_sublist.mpr ha).append (List.singleton_sublist.mpr List.mem_cons_self)
  · exact absurd rfl hne
  · exact absurd (hr.2.1.1 a ha) hba

/-! ## Scores and priorities -/

def InInt32 (x : ℤ) : Prop := -2 ^ 31 ≤ x ∧ x < 2 ^ 31

instance (x : ℤ) : Decidable (InInt32 x) := inferInstanceAs (Decidable (_ ∧ _))

theorem int32_of_in {x : ℤ} (h : InInt32 x) : int32 x = x := by
  obtain ⟨hlo, hhi⟩ := h
  exact Int.bmod_eq_of_le (by omega) (by omega)

theorem affinityOf_lt (selfId : NodeId) (peer : P2pPeerScore) : affinityOf selfId peer < 2048 := by
  rw [affinityOf, UInt32.toNat_and]
  exact Nat.and_lt_two_pow _ (by decide : (0x7ff : ℕ) < 2 ^ 11)

/-- The scores for which `peer_priority` does not overflow.  The affinity matters only for the
eight lowest. -/
def ScoreFits (selfId : NodeId) (peer : P2pPeerScore) : Prop :=
  -8388608 ≤ peer.score ∧ peer.score < 8388608 ∧
    affinityOf selfId peer ≤ (peer.score + 8388608) * 256

instance (selfId : NodeId) (peer : P2pPeerScore) : Decidable (ScoreFits selfId peer) :=
  inferInstanceAs (Decidable (_ ∧ _ ∧ _))

/-- The priority as it would be without a bound. -/
def exactPriority (selfId : NodeId) (peer : P2pPeerScore) : ℤ :=
  peer.score * 256 - affinityOf selfId peer

theorem scoreFits_iff {selfId : NodeId} {peer : P2pPeerScore} : ScoreFits selfId peer ↔
    InInt32 (peer.score * 256) ∧ InInt32 (exactPriority selfId peer) := by
  have haff := affinityOf_lt selfId peer
  unfold ScoreFits InInt32 exactPriority
  omega

theorem ScoreFits.priority_eq {selfId : NodeId} {peer : P2pPeerScore}
    (h : ScoreFits selfId peer) : peerPriority selfId peer = exactPriority selfId peer := by
  obtain ⟨hproduct, hpriority⟩ := scoreFits_iff.mp h
  rw [peerPriority, int32_of_in hproduct]
  exact int32_of_in hpriority

namespace P2pState

/-- The candidates are tried by their scores. -/
structure TriesByScore (st : P2pState cfg) (hasConnTo : NodeId → Bool) : Prop where
  /-- no operation of `peer_priority` leaves the range of an `int32_t` -/
  in_range : ∀ p ∈ st.candidates hasConnTo,
    InInt32 (p.score * 256) ∧ InInt32 (exactPriority st.selfId p)
  computed : ∀ p ∈ st.candidates hasConnTo,
    peerPriority st.selfId p = p.score * 256 - affinityOf st.selfId p ∧
      affinityOf st.selfId p ≤ 2047
  perm : (connectOrder st.selfId (st.candidates hasConnTo)).Perm (st.candidates hasConnTo)
  sorted : (connectOrder st.selfId (st.candidates hasConnTo)).Pairwise fun a b ↦
    peerPriority st.selfId b < peerPriority st.selfId a ∨
      peerPriority st.selfId a = peerPriority st.selfId b ∧ a.nodeId.before b.nodeId
  /-- a score that is higher by 8 is tried first, however many are tried -/
  higher_first : ∀ a ∈ st.candidates hasConnTo, ∀ b, b.score + 8 ≤ a.score →
    ∀ connectToPeer budget connected,
      b ∈ connectTries connectToPeer budget connected
          (connectOrder st.selfId (st.candidates hasConnTo)) →
        [a, b].Sublist (connectTries connectToPeer budget connected
          (connectOrder st.selfId (st.candidates hasConnTo)))

variable {st : P2pState cfg} {hasConnTo : NodeId → Bool}

theorem candidates_nodup (h : st.IdsApart) :
    ((st.candidates hasConnTo).map P2pPeerScore.nodeId).Nodup :=
  h.nodesInUse_nodup.sublist (List.filter_sublist.map _)

variable (hasConnTo) in
theorem connectOrder_sorted (h : st.IdsApart) :
    (connectOrder st.selfId (st.candidates hasConnTo)).Pairwise fun a b ↦
      peerPriority st.selfId b < peerPriority st.selfId a ∨
        peerPriority st.selfId a = peerPriority st.selfId b ∧ a.nodeId.before b.nodeId := by
  have hids := ((connectOrder_perm st.selfId (st.candidates hasConnTo)).map
    P2pPeerScore.nodeId).nodup_iff.mpr (candidates_nodup h)
  refine (connectOrder_pairwise st.selfId (st.candidates hasConnTo)).imp₂ ?_
    (List.pairwise_map.mp hids)
  intro a b hle hne
  have hkey : rankKey (withPriority st.selfId a) ≠ rankKey (withPriority st.selfId b) := by
    intro heq
    have hbytes := congrArg (fun k ↦ (ofLex k).2) heq
    exact hne (NodeId.bytes_injective hbytes)
  exact RankEntry.precedes_iff.mpr (lt_of_le_of_ne hle hkey)

/-- The candidates are tried by their scores exactly when none of the scores is too large or
too small. -/
theorem triesByScore_iff (h : st.Running) : st.TriesByScore hasConnTo ↔
    ∀ p ∈ st.candidates hasConnTo, ScoreFits st.selfId p := by
  constructor
  · intro htries p hp
    exact scoreFits_iff.mpr (htries.in_range p hp)
  · intro hfits
    have hperm := connectOrder_perm st.selfId (st.candidates hasConnTo)
    have hsorted := connectOrder_sorted hasConnTo h.apart
    refine ⟨fun p hp ↦ scoreFits_iff.mp (hfits p hp), fun p hp ↦ ⟨(hfits p hp).priority_eq,
      Nat.le_of_lt_succ (affinityOf_lt _ _)⟩, hperm, hsorted, ?_⟩
    intro a ha b hscore connectToPeer budget connected hb
    have htried := connectTries_prefix connectToPeer budget connected
      (connectOrder st.selfId (st.candidates hasConnTo))
    have hbmem := hperm.mem_iff.mp (htried.subset hb)
    have hlt : peerPriority st.selfId b < peerPriority st.selfId a := by
      have haff := affinityOf_lt st.selfId a
      rw [(hfits a ha).priority_eq, (hfits b hbmem).priority_eq, exactPriority, exactPriority]
      omega
    refine sublist_of_pairwise hsorted htried (hperm.mem_iff.mpr ha) ?_ ?_ hb
    · rintro rfl
      exact absurd hlt (lt_irrefl _)
    · rintro (hback | ⟨heq, -⟩)
      · exact lt_asymm hlt hback
      · exact hlt.ne heq

/-- A broker that has heard of two routers with these scores. -/
def heardScores (s t : ℤ) : P2pState Config.posix :=
  let first := ((init Config.posix (fun _ ↦ 1) (Elector.oneRouterAt 0)).call
    (.updatePeer ⟨fun _ ↦ 2, 1883, 4884, s, 1⟩ 0 (Elector.oneRouterAt 1000))).1
  (first.call (.updatePeer ⟨fun _ ↦ 3, 1883, 4884, t, 1⟩ 0 (Elector.oneRouterAt 1000))).1

theorem heardScores_running (s t : ℤ) : (heardScores s t).Running :=
  ((Running.init _ _).call _).call _

theorem triesByScore_iff_near_limits :
    (heardScores 8388607 (-8388600)).TriesByScore (fun _ ↦ false) ↔
    ∀ p ∈ (heardScores 8388607 (-8388600)).candidates fun _ ↦ false,
      ScoreFits (heardScores 8388607 (-8388600)).selfId p :=
  triesByScore_iff (heardScores_running _ _)

/-- The product of the higher score and 256 wraps around to a negative number. -/
theorem high_score_tried_last : (heardScores 8388616 0).Running ∧
    ¬ (heardScores 8388616 0).TriesByScore (fun _ ↦ false) ∧
      (connectOrder (heardScores 8388616 0).selfId
        ((heardScores 8388616 0).candidates fun _ ↦ false)).map P2pPeerScore.score = [0, 8388616] :=
  ⟨heardScores_running _ _, fun h ↦ absurd h.in_range (by decide +kernel), by decide +kernel⟩

end P2pState

end MqttBroker
