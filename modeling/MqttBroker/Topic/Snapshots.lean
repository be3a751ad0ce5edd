import MqttBroker.Lib.Paging
import MqttBroker.Mesh.Advertise

/-!
# Snapshots of the subscriptions

`topic_get_sub_snapshots_from`, which reads the subscription table in pages and unlocks it
between them, and the two loops of `p2p_peer.c` that read all pages.
-/

namespace MqttBroker

open Paging

variable {cfg : Config} {κ : Type}

/-- `sub_snapshot_t` -/
structure SubSnapshot where
  filter : CStr
  clientId : CStr
  qos : UInt8
  deriving DecidableEq, Repr

namespace TopicTable

def used (t : TopicTable cfg κ) (i : Slot cfg) : Bool := (t.subs i).inUse

/-- What is copied of one slot; `ids` are the client ids of the connections. -/
def snapshot (t : TopicTable cfg κ) (ids : κ → CStr) (i : Slot cfg) : SubSnapshot where
  filter := (t.subs i).filter.take (MQTT_TOPIC_MAX - 1)
  clientId := (ids (t.subs i).client).take (MQTT_CLIENT_ID_MAX - 1)
  qos := (t.subs i).qos

/-- `topic_get_sub_snapshots_from`: the snapshots and the new cursor. -/
def topicGetSubSnapshotsFrom (t : TopicTable cfg κ) (ids : κ → CStr) (max cursor : ℕ) :
    List SubSnapshot × ℕ :=
  let r := page t.used max cursor
  (r.1.map (t.snapshot ids), min r.2 cfg.topicMaxSubs)

/-- `topic_get_sub_snapshots` -/
def topicGetSubSnapshots (t : TopicTable cfg κ) (ids : κ → CStr) (max : ℕ) : List SubSnapshot :=
  (t.topicGetSubSnapshotsFrom ids max 0).1

end TopicTable

/-- A call of `topic_get_sub_snapshots_from`, and the calls that change the table since the
last one. -/
structure PageCall (κ : Type) where
  before : List (TopicOp κ)
  ids : κ → CStr
  max : ℕ

/-- What such a call met and returned, and from which slots. -/
structure TablePage (cfg : Config) (κ : Type) where
  call : PageCall κ
  table : TopicTable cfg κ
  start : ℕ
  slots : List (Slot cfg)
  out : List SubSnapshot
  next : ℕ

section

variable [DecidableEq κ]

/-- The pages that are read with one cursor, and its last value. -/
def TopicTable.pagesFrom (t : TopicTable cfg κ) (cursor : ℕ) :
    List (PageCall κ) → Option (List (TablePage cfg κ) × ℕ)
  | [] => some ([], cursor)
  | c :: calls => do
      let t ← c.before.foldlM TopicTable.apply t
      let r := t.topicGetSubSnapshotsFrom c.ids c.max cursor
      let (pages, last) ← t.pagesFrom r.2 calls
      some (⟨c, t, cursor, (page t.used c.max cursor).1, r.1, r.2⟩ :: pages, last)

/-- The loop over the pages of 8 snapshots, which may also stop at an empty page: the snapshots
it goes through.  `env k` are the calls that change the table before page `k`. -/
def TopicTable.pagingLoop (stopAtEmpty : Bool) (ids : κ → CStr) (env : ℕ → List (TopicOp κ)) :
    ℕ → ℕ → TopicTable cfg κ → ℕ → Option (List SubSnapshot)
  | 0, _, _, _ => none
  | fuel + 1, k, t, cursor =>
      if cursor < cfg.topicMaxSubs then do
        let t ← (env k).foldlM TopicTable.apply t
        let (subs, next) := t.topicGetSubSnapshotsFrom ids 8 cursor
        if stopAtEmpty ∧ subs = [] then some subs
        else
          let rest ← pagingLoop stopAtEmpty ids env fuel (k + 1) t next
          some (subs ++ rest)
      else some []

/-- The frames of `advertise_local_subs_to`, while the table changes. -/
def TopicTable.advertisePages (t : TopicTable cfg κ) (ids : κ → CStr)
    (env : ℕ → List (TopicOp κ)) : Option (List Notify) :=
  (pagingLoop false ids env (cfg.topicMaxSubs + 1) 0 t 0).map
    (·.map fun s ↦ .localSubscribe s.filter s.qos)

/-- The calls that `p2p_resync_local_subscriptions` makes, while the table changes. -/
def TopicTable.resyncPages (t : TopicTable cfg κ) (ids : κ → CStr)
    (env : ℕ → List (TopicOp κ)) : Option (List Notify) :=
  (pagingLoop true ids env (cfg.topicMaxSubs + 1) 0 t 0).map
    (·.map fun s ↦ .localSubscribe s.filter s.qos)

end

/-! ## One page -/

namespace TopicTable

variable {t : TopicTable cfg κ} {ids : κ → CStr} {max cursor : ℕ}

theorem isPage_used (t : TopicTable cfg κ) (max : ℕ) (h : cursor ≤ cfg.topicMaxSubs) :
    IsPage t.used max cursor (page t.used max cursor) := isPage_page h

theorem snapshotsFrom_next (t : TopicTable cfg κ) (ids : κ → CStr) (max : ℕ)
    (h : cursor ≤ cfg.topicMaxSubs) :
    (t.topicGetSubSnapshotsFrom ids max cursor).2 = (page t.used max cursor).2 :=
  min_eq_left (t.isPage_used max h).le

/-- An empty page ends the table. -/
theorem snapshotsFrom_end (h : cursor ≤ cfg.topicMaxSubs) (hmax : 0 < max)
    (hnil : (t.topicGetSubSnapshotsFrom ids max cursor).1 = []) :
    (t.topicGetSubSnapshotsFrom ids max cursor).2 = cfg.topicMaxSubs := by
  rw [t.snapshotsFrom_next ids max h]
  exact (t.isPage_used max h).next_eq_of_nil hmax (List.map_eq_nil_iff.mp hnil)

theorem snapshotsFrom_of_end (t : TopicTable cfg κ) (ids : κ → CStr) (max : ℕ) :
    t.topicGetSubSnapshotsFrom ids max cfg.topicMaxSubs = ([], cfg.topicMaxSubs) := by
  unfold topicGetSubSnapshotsFrom
  rw [page_end]
  simp

end TopicTable

/-! ## All pages -/

namespace TablePage

/-- What a page of a table is. -/
structure Right (r : TablePage cfg κ) : Prop where
  out : r.out = r.slots.map (r.table.snapshot r.call.ids)
  used : ∀ i ∈ r.slots, (r.table.subs i).inUse = true
  bound : r.next ≤ cfg.topicMaxSubs
  progress : r.start < cfg.topicMaxSubs → r.start < r.next
  /-- an empty page comes after the last subscription of the table -/
  empty : r.out = [] → ∀ max, r.table.topicGetSubSnapshotsFrom r.call.ids max r.next =
    ([], r.next)

/-- The page as one of an array. -/
def read (r : TablePage cfg κ) : (Slot cfg → Bool) × ℕ × List (Slot cfg) :=
  (r.table.used, r.call.max, r.slots)

theorem right_page {t : TopicTable cfg κ} {cursor : ℕ} (h : cursor ≤ cfg.topicMaxSubs)
    {c : PageCall κ} (hmax : 1 ≤ c.max) :
    Right ⟨c, t, cursor, (page t.used c.max cursor).1,
      (t.topicGetSubSnapshotsFrom c.ids c.max cursor).1,
      (t.topicGetSubSnapshotsFrom c.ids c.max cursor).2⟩ where
  out := rfl
  used i hi := (((t.isPage_used c.max h).mem i).mp hi).1
  bound := min_le_right _ _
  progress hlt := by
    dsimp only at hlt ⊢
    rw [t.snapshotsFrom_next c.ids c.max h]
    exact (t.isPage_used c.max h).progress hmax hlt
  empty hnil max := by
    dsimp only at hnil ⊢
    rw [TopicTable.snapshotsFrom_end h hmax hnil]
    exact t.snapshotsFrom_of_end c.ids max

end TablePage

/-- The pages that were read with a cursor whose last value is `last`. -/
structure PagesRight (pages : List (TablePage cfg κ)) (last : ℕ) : Prop where
  page : ∀ r ∈ pages, r.Right
  /-- no slot is returned twice -/
  once : (pages.flatMap TablePage.slots).Nodup
  /-- what stays in use is returned exactly once, as soon as the cursor has passed it -/
  kept : ∀ i : Slot cfg, (∀ r ∈ pages, (r.table.subs i).inUse = true) → i < last →
    (pages.flatMap TablePage.slots).count i = 1

theorem taken_read (pages : List (TablePage cfg κ)) :
    taken (pages.map TablePage.read) = pages.flatMap TablePage.slots := by
  rw [taken, List.flatMap_map]
  rfl

theorem pagesRight_of_read {pages : List (TablePage cfg κ)} {last : ℕ}
    (hread : Paging.Read 0 (pages.map TablePage.read) last) (hpage : ∀ r ∈ pages, r.Right) :
    PagesRight pages last where
  page := hpage
  once := by
    rw [← taken_read]
    exact hread.sorted.imp fun hlt ↦ ne_of_lt hlt
  kept i hi hlt := by
    have hnodup : (taken (pages.map TablePage.read)).Nodup :=
      hread.sorted.imp fun hlt ↦ ne_of_lt hlt
    have hmem : i ∈ taken (pages.map TablePage.read) := by
      refine hread.mem_of_always (Nat.zero_le _) hlt fun x hx ↦ ?_
      obtain ⟨r, hr, rfl⟩ := List.mem_map.mp hx
      exact hi r hr
    rw [← taken_read]
    exact List.count_eq_one_of_mem hnodup hmem

namespace TopicTable

variable [DecidableEq κ] {t : TopicTable cfg κ} {cursor : ℕ}

/-- The cursor goes on from page to page. -/
theorem IsLinked.pagesFrom (h : t.IsLinked) (hcursor : cursor ≤ cfg.topicMaxSubs)
    {calls : List (PageCall κ)} (hmax : ∀ c ∈ calls, 1 ≤ c.max) :
    ∃ pages last, t.pagesFrom cursor calls = some (pages, last) ∧
      Paging.Read cursor (pages.map TablePage.read) last ∧ ∀ r ∈ pages, r.Right := by
  induction calls generalizing t cursor with
  | nil => exact ⟨[], cursor, rfl, .nil hcursor, nofun⟩
  | cons c calls ih =>
      obtain ⟨t', hrun, ht'⟩ := h.foldlM c.before
      have hpage := t'.isPage_used c.max hcursor
      have hnext := t'.snapshotsFrom_next c.ids c.max hcursor
      have hbound : (t'.topicGetSubSnapshotsFrom c.ids c.max cursor).2 ≤ cfg.topicMaxSubs :=
        min_le_right _ _
      obtain ⟨pages, last, hpages, hread, hright⟩ :=
        ih ht' hbound fun c' hc' ↦ hmax c' (List.mem_cons_of_mem c hc')
      refine ⟨⟨c, t', cursor, (page t'.used c.max cursor).1,
        (t'.topicGetSubSnapshotsFrom c.ids c.max cursor).1,
        (t'.topicGetSubSnapshotsFrom c.ids c.max cursor).2⟩ :: pages, last, ?_, ?_,
        List.forall_mem_cons.mpr
          ⟨TablePage.right_page hcursor (hmax c List.mem_cons_self), hright⟩⟩
      · simp only [TopicTable.pagesFrom, hrun, Option.bind_eq_bind, Option.bind_some, hpages]
      · rw [hnext] at hread
        exact .cons hpage hread

/-! ## The loops -/

/-- The pages of a loop. -/
def loopCalls (ids : κ → CStr) (env : ℕ → List (TopicOp κ)) (k m : ℕ) : List (PageCall κ) :=
  (List.range' k m).map fun j ↦ ⟨env j, ids, 8⟩

/-- Both loops end, and they go through pages that reach the end of the table. -/
theorem IsLinked.pagingLoop_pages (h : t.IsLinked) (hcursor : cursor ≤ cfg.topicMaxSubs)
    (stopAtEmpty : Bool) (ids : κ → CStr) (env : ℕ → List (TopicOp κ)) {fuel : ℕ} (k : ℕ)
    (hfuel : cfg.topicMaxSubs - cursor < fuel) :
    ∃ m pages, t.pagesFrom cursor (loopCalls ids env k m) = some (pages, cfg.topicMaxSubs) ∧
      TopicTable.pagingLoop stopAtEmpty ids env fuel k t cursor =
        some (pages.flatMap TablePage.out) := by
  induction fuel generalizing t cursor k with
  | zero => exact absurd hfuel (Nat.not_lt_zero _)
  | succ fuel ih =>
      by_cases hlt : cursor < cfg.topicMaxSubs
      · obtain ⟨t', hrun, ht'⟩ := h.foldlM (env k)
        have hnext := t'.snapshotsFrom_next ids 8 hcursor
        have hgt := (t'.isPage_used 8 hcursor).progress (by decide) hlt
        rw [← hnext] at hgt
        by_cases hstop : stopAtEmpty ∧ (t'.topicGetSubSnapshotsFrom ids 8 cursor).1 = []
        · have hend := snapshotsFrom_end hcursor (by decide) hstop.2
          refine ⟨1, [⟨⟨env k, ids, 8⟩, t', cursor, (page t'.used 8 cursor).1,
            (t'.topicGetSubSnapshotsFrom ids 8 cursor).1, cfg.topicMaxSubs⟩], ?_, ?_⟩
          · simp only [loopCalls, List.range'_one, List.map_cons, List.map_nil,
              TopicTable.pagesFrom, hrun, Option.bind_eq_bind, Option.bind_some, hend]
          · simp only [TopicTable.pagingLoop, hlt, if_true, hrun, Option.bind_eq_bind,
              Option.bind_some, hstop, List.flatMap_cons, List.flatMap_nil, List.append_nil]
            simp
        · have hbound : (t'.topicGetSubSnapshotsFrom ids 8 cursor).2 ≤ cfg.topicMaxSubs :=
            min_le_right _ _
          obtain ⟨m, pages, hpages, hloop⟩ := ih ht' hbound (k + 1) (by omega)
          refine ⟨m + 1, ⟨⟨env k, ids, 8⟩, t', cursor, (page t'.used 8 cursor).1,
            (t'.topicGetSubSnapshotsFrom ids 8 cursor).1,
            (t'.topicGetSubSnapshotsFrom ids 8 cursor).2⟩ :: pages, ?_, ?_⟩
          · have hcalls : loopCalls ids env k (m + 1) =
                ⟨env k, ids, 8⟩ :: loopCalls ids env (k + 1) m := rfl
            simp only [hcalls, TopicTable.pagesFrom, hrun, Option.bind_eq_bind, Option.bind_some,
              hpages]
          · simp only [TopicTable.pagingLoop, hlt, if_true, hrun, Option.bind_eq_bind,
              Option.bind_some, hstop, if_false, hloop, List.flatMap_cons]
      · obtain rfl : cursor = cfg.topicMaxSubs := le_antisymm hcursor (not_lt.mp hlt)
        exact ⟨0, [], rfl, by simp [TopicTable.pagingLoop]⟩

end TopicTable

/-- The SUB_NOTIFY frames or the calls for the pages. -/
def TablePage.tells (pages : List (TablePage cfg κ)) : List Notify :=
  (pages.flatMap TablePage.out).map fun s ↦ .localSubscribe s.filter s.qos

section

variable [DecidableEq κ]

/-- The loop ended, with all pages of the table. -/
def TopicTable.ReadsAll (t : TopicTable cfg κ) (ids : κ → CStr) (env : ℕ → List (TopicOp κ))
    (told : Option (List Notify)) : Prop :=
  ∃ m pages, t.pagesFrom 0 (TopicTable.loopCalls ids env 0 m) = some (pages, cfg.topicMaxSubs) ∧
    PagesRight pages cfg.topicMaxSubs ∧ told = some (TablePage.tells pages)

theorem TopicTable.IsLinked.pagesRight {t : TopicTable cfg κ} (h : t.IsLinked)
    {calls : List (PageCall κ)} (hmax : ∀ c ∈ calls, 1 ≤ c.max) :
    ∃ pages last, t.pagesFrom 0 calls = some (pages, last) ∧ PagesRight pages last := by
  obtain ⟨pages, last, hrun, hread, hright⟩ := h.pagesFrom (Nat.zero_le _) hmax
  exact ⟨pages, last, hrun, pagesRight_of_read hread hright⟩

theorem TopicTable.IsLinked.readsAll {t : TopicTable cfg κ} (h : t.IsLinked) (stopAtEmpty : Bool)
    (ids : κ → CStr) (env : ℕ → List (TopicOp κ)) :
    t.ReadsAll ids env ((TopicTable.pagingLoop stopAtEmpty ids env (cfg.topicMaxSubs + 1) 0 t 0).map
      (·.map fun s ↦ .localSubscribe s.filter s.qos)) := by
  obtain ⟨m, pages, hpages, hloop⟩ :=
    h.pagingLoop_pages (Nat.zero_le _) stopAtEmpty ids env 0 (Nat.lt_succ_of_le (Nat.sub_le _ _))
  have hmax : ∀ c ∈ loopCalls ids env 0 m, 1 ≤ c.max := by
    intro c hc
    obtain ⟨j, -, rfl⟩ := List.mem_map.mp hc
    exact Nat.le_add_left 1 7
  obtain ⟨pages', last, hrun, hright⟩ := h.pagesRight hmax
  obtain ⟨rfl, rfl⟩ := Prod.mk.inj (Option.some.inj (hpages.symm.trans hrun))
  exact ⟨m, pages, hpages, hright, by rw [hloop]; rfl⟩

omit [DecidableEq κ] in
theorem TablePage.tells_still {pages : List (TablePage cfg κ)} (hright : ∀ r ∈ pages, r.Right)
    {t : TopicTable cfg κ} (ht : ∀ r ∈ pages, r.table = t)
    (hshort : ∀ i, (t.subs i).filter.length < MQTT_TOPIC_MAX) :
    TablePage.tells pages = (pages.flatMap TablePage.slots).map fun i ↦
      .localSubscribe (t.subs i).filter (t.subs i).qos := by
  simp only [TablePage.tells, List.map_flatMap]
  refine List.flatMap_congr fun r hr ↦ ?_
  rw [(hright r hr).out, ht r hr, List.map_map]
  refine List.map_congr_left fun i _ ↦ ?_
  simp only [Function.comp_apply, TopicTable.snapshot,
    List.take_of_length_le (Nat.le_sub_one_of_lt (hshort i))]

theorem TopicTable.pagesFrom_still {t : TopicTable cfg κ} {cursor last : ℕ}
    {calls : List (PageCall κ)} {pages : List (TablePage cfg κ)}
    (hstill : ∀ c ∈ calls, c.before = [])
    (h : t.pagesFrom cursor calls = some (pages, last)) : ∀ r ∈ pages, r.table = t := by
  induction calls generalizing cursor pages with
  | nil =>
      cases h
      exact nofun
  | cons c calls ih =>
      simp only [TopicTable.pagesFrom, hstill c List.mem_cons_self, List.foldlM_nil, Option.pure_def,
        Option.bind_eq_bind, Option.bind_some] at h
      obtain ⟨⟨pages', last'⟩, hrest, h⟩ := Option.bind_eq_some_iff.mp h
      cases h
      exact List.forall_mem_cons.mpr
        ⟨rfl, ih (fun c' hc' ↦ hstill c' (List.mem_cons_of_mem c hc')) hrest⟩

/-- While the table stays as it is, a new router is told of every subscription once. -/
theorem TopicTable.IsLinked.advertisePages_still {t : TopicTable cfg κ} (h : t.IsLinked)
    (hshort : ∀ i, (t.subs i).filter.length < MQTT_TOPIC_MAX) (ids : κ → CStr) :
    t.advertisePages ids (fun _ ↦ []) = some t.advertiseLocalSubsTo := by
  obtain ⟨m, pages, hpages, hloop⟩ := h.pagingLoop_pages (Nat.zero_le _) false ids (fun _ ↦ []) 0
    (Nat.lt_succ_of_le (Nat.sub_le cfg.topicMaxSubs 0))
  have hcall : ∀ c ∈ loopCalls ids (fun _ ↦ []) 0 m, 1 ≤ c.max ∧ c.before = [] := by
    intro c hc
    obtain ⟨j, -, rfl⟩ := List.mem_map.mp hc
    exact ⟨Nat.le_add_left 1 7, rfl⟩
  obtain ⟨pages', last, hrun, hread, hright⟩ :=
    h.pagesFrom (Nat.zero_le _) fun c hc ↦ (hcall c hc).1
  obtain ⟨rfl, rfl⟩ := Prod.mk.inj (Option.some.inj (hpages.symm.trans hrun))
  have htable := pagesFrom_still (fun c hc ↦ (hcall c hc).2) hpages
  have htaken : pages.flatMap TablePage.slots = (List.finRange cfg.topicMaxSubs).filter t.used := by
    rw [← taken_read]
    refine hread.taken_eq fun x hx ↦ ?_
    obtain ⟨r, hr, rfl⟩ := List.mem_map.mp hx
    exact congrArg TopicTable.used (htable r hr)
  have htells := TablePage.tells_still hright htable hshort
  rw [htaken] at htells
  rw [advertisePages, hloop, Option.map_some, advertiseLocalSubsTo,
    advertiseFrom_eq t List.length_finRange.le, snapshots, List.map_map]
  exact congrArg some htells

variable [Inhabited κ]

/-- Whatever is subscribed and unsubscribed between the pages, no slot is returned twice, what
stays in use is returned once, and the loops over all pages end. -/
theorem paging_right (ops : List (TopicOp κ)) :
    ∃ t, topicRun cfg ops = some t ∧
      (∀ calls : List (PageCall κ), (∀ c ∈ calls, 1 ≤ c.max) →
        ∃ pages last, t.pagesFrom 0 calls = some (pages, last) ∧ PagesRight pages last) ∧
      ∀ (ids : κ → CStr) (env : ℕ → List (TopicOp κ)),
        t.ReadsAll ids env (t.advertisePages ids env) ∧
        t.ReadsAll ids env (t.resyncPages ids env) := by
  obtain ⟨t, hrun, ht⟩ := topicRun_isLinked cfg ops
  exact ⟨t, hrun, fun calls hmax ↦ ht.pagesRight hmax,
    fun ids env ↦ ⟨ht.readsAll false ids env, ht.readsAll true ids env⟩⟩

end

namespace PagingSample

def ops : List (TopicOp ℕ) := [.subscribe 1 [0x61] 0, .subscribe 2 [0x62] 1, .subscribe 3 [0x63] 2]

/-- Pages of one, with a change in between. -/
def calls : List (PageCall ℕ) :=
  [⟨[], fun _ ↦ [0x78], 1⟩, ⟨[.unsubscribe 2 [0x62], .subscribe 4 [0x64] 0], fun _ ↦ [0x78], 1⟩,
    ⟨[.unsubscribeAll 1], fun _ ↦ [0x78], 8⟩]

end PagingSample

open PagingSample

theorem paging_right_changing :
    ((topicRun Config.posix ops).bind fun t ↦ (t.pagesFrom 0 calls).map fun r ↦
      (r.1.map fun p ↦ (p.slots.map Fin.val, p.next), r.2)) =
        some ([([0], 1), ([1], 2), ([2], 64)], 64) ∧
    ∃ t, topicRun Config.posix ops = some t ∧
      ∃ pages last, t.pagesFrom 0 calls = some (pages, last) ∧ PagesRight pages last := by
  refine ⟨by decide +kernel, ?_⟩
  obtain ⟨t, hrun, hpages, -⟩ := @paging_right Config.posix ℕ _ _ ops
  exact ⟨t, hrun, hpages calls (by simp [calls])⟩

end MqttBroker
