import MqttBroker.Mesh.Announce
import MqttBroker.Mesh.Listening

/-!
# What is told of the filters of both listeners

The notifications of a call, read in order, say of each filter whether it is held after the
call, by a client of either listener.
-/

namespace MqttBroker

variable {cfg : Config} {κ : Type}

/-! ## Notifications in order -/

/-- Whoever knew which filters are held before the notifications knows it after them. -/
structure Tells (before after : CStr → Prop) (notes : List Notify) : Prop where
  fits : ∀ m ∈ notes, m.fits = true
  last : ∀ f, (heard notes f).elim (after f ↔ before f) fun told ↦ (after f ↔ told = true)

theorem heard_append_list (received notes : List Notify) (f : CStr) :
    heard (received ++ notes) f = (heard notes f).or (heard received f) := by
  unfold heard
  rw [List.filter_append, List.getLast?_append, Option.map_or]

namespace Tells

variable {H H' H'' : CStr → Prop} {notes notes' : List Notify}

theorem nil (h : ∀ f, H' f ↔ H f) : Tells H H' [] := ⟨nofun, h⟩

theorem one {m : Notify} (hfits : m.fits = true) (hm : H' m.filter ↔ m.isSub = true)
    (hothers : ∀ f, f ≠ m.filter → (H' f ↔ H f)) : Tells H H' [m] where
  fits := by simpa using hfits
  last f := by
    rw [← List.nil_append [m], heard_append]
    by_cases hf : f = m.filter
    · subst hf
      simpa using hm
    · rw [Function.update_of_ne hf]
      exact hothers f hf

theorem trans (h : Tells H H' notes) (h' : Tells H' H'' notes') :
    Tells H H'' (notes ++ notes') where
  fits m hm := (List.mem_append.mp hm).elim (h.fits m) (h'.fits m)
  last f := by
    have hlast := h.last f
    have hlast' := h'.last f
    rw [heard_append_list]
    cases hsecond : heard notes' f with
    | some told =>
        rw [hsecond] at hlast'
        exact hlast'
    | none =>
        rw [hsecond] at hlast'
        rw [Option.none_or]
        cases hfirst : heard notes f with
        | some told =>
            rw [hfirst] at hlast
            exact hlast'.trans hlast
        | none =>
            rw [hfirst] at hlast
            exact hlast'.trans hlast

theorem congr (h : Tells H H' notes) (hafter : ∀ f, H'' f ↔ H' f) : Tells H H'' notes := by
  simpa using h.trans (.nil hafter)

/-- Who knew what was held and is told the notifications knows what is held. -/
theorem heard_iff (h : Tells H H' notes) {received : List Notify} {f : CStr}
    (hknew : heard received f = some true ↔ H f) :
    heard (received ++ notes) f = some true ↔ H' f := by
  have hlast := h.last f
  rw [heard_append_list]
  cases hfirst : heard notes f with
  | some told =>
      rw [hfirst] at hlast
      simpa using hlast.symm
  | none =>
      rw [hfirst] at hlast
      exact hknew.trans hlast.symm

end Tells

theorem TopicTable.Announces.tells {t t' : TopicTable cfg κ} {notes : List Notify}
    (h : t.Announces t' notes) : Tells t.Held t'.Held notes := by
  rcases h with ⟨rfl, hheld⟩ | ⟨m, rfl, hfits, hm, hothers⟩
  · exact .nil hheld
  · exact .one hfits hm hothers

/-! ## Filters of mesh-ingress clients -/

/-- Some mesh-ingress client holds the filter. -/
def MeshHeld (m : MeshClients) (f : CStr) : Prop :=
  ∃ i j, (m i).inUse = true ∧ (m i).subInUse j = true ∧ (m i).subs j = f

instance (m : MeshClients) (f : CStr) : Decidable (MeshHeld m f) :=
  inferInstanceAs (Decidable (∃ _ _, _ ∧ _))

/-- Some client of either listener holds the filter. -/
def HeldByAny (t : TopicTable cfg κ) (m : MeshClients) (f : CStr) : Prop :=
  t.Held f ∨ MeshHeld m f

instance (t : TopicTable cfg κ) (m : MeshClients) (f : CStr) : Decidable (HeldByAny t m f) :=
  inferInstanceAs (Decidable (_ ∨ _))

/-- Filters as a SUBSCRIBE packet can have them. -/
def MeshFilters (m : MeshClients) : Prop :=
  ∀ i j, (m i).subInUse j = true → (m i).subs j ≠ [] ∧ ((m i).subs j).length < MQTT_TOPIC_MAX

theorem meshFilterRefcount_eq_zero_iff {m : MeshClients} {f : CStr} (hf : f ≠ []) :
    meshFilterRefcount m f = 0 ↔ ¬ MeshHeld m f := by
  rw [meshFilterRefcount, if_neg hf, List.sum_eq_zero_iff]
  simp only [List.mem_map, List.mem_finRange, true_and, forall_exists_index,
    forall_apply_eq_imp_iff, MeshHeld, not_exists, not_and]
  refine forall_congr' fun i ↦ ?_
  split_ifs with huse
  · rw [List.countP_eq_zero]
    simp [huse]
  · simp [huse]

theorem filterSubscriberCount_eq_zero_iff {t : TopicTable cfg κ} {f : CStr} (hf : f ≠ []) :
    t.filterSubscriberCount f = 0 ↔ ¬ t.Held f := by
  rw [TopicTable.filterSubscriberCount, if_neg hf, List.countP_eq_zero]
  simp [TopicTable.Held, TopicTable.HoldsAt]

theorem meshFilterCanWithdraw_iff {t : TopicTable cfg κ} {m : MeshClients} {f : CStr}
    (hf : f ≠ []) : meshFilterCanWithdraw t m f = true ↔ ¬ HeldByAny t m f := by
  rw [meshFilterCanWithdraw, Bool.and_eq_true, decide_eq_true_eq, decide_eq_true_eq,
    meshFilterRefcount_eq_zero_iff hf, filterSubscriberCount_eq_zero_iff hf, HeldByAny, not_or,
    and_comm]

/-- The subscriptions are the same. -/
structure MeshClient.SameFilters (c c' : MeshClient) : Prop where
  inUse : c'.inUse = c.inUse
  subs : c'.subs = c.subs
  subInUse : c'.subInUse = c.subInUse

theorem MeshClient.SameTables.sameFilters {c c' : MeshClient} (h : c.SameTables c') :
    c.SameFilters c' := ⟨h.inUse, h.subs, h.subInUse⟩

section

variable {m m' : MeshClients}

theorem meshHeld_congr (h : ∀ i, (m i).SameFilters (m' i)) (f : CStr) :
    MeshHeld m' f ↔ MeshHeld m f := by
  unfold MeshHeld
  simp only [(h _).inUse, (h _).subInUse, (h _).subs]

theorem MeshFilters.congr (hm : MeshFilters m) (h : ∀ i, (m i).SameFilters (m' i)) :
    MeshFilters m' := by
  intro i j hj
  rw [(h i).subInUse] at hj
  rw [(h i).subs]
  exact hm i j hj

theorem sameFilters_update {i : MeshSlot} {c : MeshClient} (h : (m i).SameFilters c)
    (k : MeshSlot) : (m k).SameFilters (Function.update m i c k) := by
  by_cases hk : k = i
  · subst hk
    rwa [Function.update_self]
  · rw [Function.update_of_ne hk]
    exact ⟨rfl, rfl, rfl⟩

/-- A client gives up some of its subscriptions. -/
theorem meshHeld_drop {i : MeshSlot} {inUse : Fin MESH_INGRESS_SUBS_PER_CLIENT → Bool}
    (hsub : ∀ j, inUse j = true → (m i).subInUse j = true) {f : CStr}
    (hkept : ∀ j, (m i).subInUse j = true → (m i).subs j = f → inUse j = true) :
    MeshHeld (Function.update m i { m i with subInUse := inUse }) f ↔ MeshHeld m f := by
  unfold MeshHeld
  refine exists_congr fun k ↦ exists_congr fun j ↦ ?_
  by_cases hk : k = i
  · subst hk
    rw [Function.update_self]
    dsimp only
    refine and_congr_right fun _ ↦ ⟨fun h ↦ ⟨hsub j h.1, h.2⟩, fun h ↦ ⟨hkept j h.1 h.2, h.2⟩⟩
  · rw [Function.update_of_ne hk]

theorem MeshFilters.update (hm : MeshFilters m) (i : MeshSlot) {c : MeshClient}
    (hc : ∀ j, c.subInUse j = true → c.subs j ≠ [] ∧ (c.subs j).length < MQTT_TOPIC_MAX) :
    MeshFilters (Function.update m i c) := by
  intro k
  by_cases hk : k = i
  · subst hk
    rwa [Function.update_self]
  · rw [Function.update_of_ne hk]
    exact hm k

end

/-! ## The functions of the mesh-ingress listener -/

/-- The notification in what a function causes. -/
def MeshOutput.note : MeshOutput → Option Notify
  | .notify n => some n
  | _ => none

def notesOf (log : List MeshOutput) : List Notify := log.filterMap MeshOutput.note

@[simp] theorem notesOf_append (l l' : List MeshOutput) :
    notesOf (l ++ l') = notesOf l ++ notesOf l' := List.filterMap_append

@[simp] theorem notesOf_notify (notes : List Notify) :
    notesOf (notes.map .notify) = notes := by
  rw [notesOf, List.filterMap_map]
  exact List.filterMap_some

/-- What is told tells the filters of both listeners before and after. -/
structure MeshTells (t : TopicTable cfg κ) (m : MeshClients) (r : MeshResult) : Prop where
  filters : MeshFilters r.1
  tells : Tells (HeldByAny t m) (HeldByAny t r.1) (notesOf r.2)

namespace MeshTells

variable {t : TopicTable cfg κ} {m : MeshClients} {r : MeshResult}

/-- Nothing changes, and nothing is told. -/
theorem quiet (hm : MeshFilters m) {l : List MeshOutput} (hnotes : notesOf l = []) :
    MeshTells t m (m, l) where
  filters := hm
  tells := by
    rw [hnotes]
    exact .nil fun _ ↦ Iff.rfl

/-- A client changes, but for its subscriptions. -/
theorem thenUpdate (h : MeshTells t m r) {i : MeshSlot} {c : MeshClient}
    (hc : (r.1 i).SameFilters c) : MeshTells t m (Function.update r.1 i c, r.2) where
  filters := h.filters.congr (sameFilters_update hc)
  tells := h.tells.congr fun f ↦ or_congr_right (meshHeld_congr (sameFilters_update hc) f)

theorem andThen (h : MeshTells t m r) {m' : MeshClients} {l : List MeshOutput}
    (h' : MeshTells t r.1 (m', l)) : MeshTells t m (m', r.2 ++ l) where
  filters := h'.filters
  tells := by
    rw [notesOf_append]
    exact h.tells.trans h'.tells

/-- What is not told of does not count. -/
theorem append (h : MeshTells t m r) {l : List MeshOutput} (hl : notesOf l = []) :
    MeshTells t m (r.1, r.2 ++ l) :=
  h.andThen (.quiet h.filters hl)

theorem replyTo (h : MeshTells t m r) (i : MeshSlot) (frame : Option Bytes) :
    MeshTells t m (MeshResult.replyTo i frame r) :=
  h.append (by cases frame <;> rfl)

end MeshTells

section

variable {t : TopicTable cfg κ} {m : MeshClients}

/-- One filter is given up, and withdrawn if it was the last one. -/
theorem tells_withdraw {i : MeshSlot} {inUse : Fin MESH_INGRESS_SUBS_PER_CLIENT → Bool}
    {f : CStr} (hne : f ≠ []) (hlen : f.length < MQTT_TOPIC_MAX) (hheld : MeshHeld m f)
    (hsub : ∀ j, inUse j = true → (m i).subInUse j = true)
    (hkept : ∀ j, (m i).subInUse j = true → (m i).subs j ≠ f → inUse j = true) :
    Tells (HeldByAny t m) (HeldByAny t (Function.update m i { m i with subInUse := inUse }))
      (if meshFilterCanWithdraw t (Function.update m i { m i with subInUse := inUse }) f then
        [.localUnsubscribe f] else []) := by
  have hothers : ∀ g, g ≠ f →
      (HeldByAny t (Function.update m i { m i with subInUse := inUse }) g ↔ HeldByAny t m g) :=
    fun g hg ↦ or_congr_right (meshHeld_drop hsub fun j hj hjg ↦ hkept j hj (hjg ▸ hg))
  split_ifs with hcan
  · rw [meshFilterCanWithdraw_iff hne] at hcan
    exact .one (by simpa [Notify.fits] using hlen) (iff_of_false hcan (by simp [Notify.isSub]))
      hothers
  · rw [meshFilterCanWithdraw_iff hne, not_not] at hcan
    refine .nil fun g ↦ ?_
    by_cases hg : g = f
    · exact hg ▸ iff_of_true hcan (.inr hheld)
    · exact hothers g hg

/-- What `mesh_client_close` has done after some of its rounds. -/
structure Closing (t : TopicTable cfg κ) (m : MeshClients) (i : MeshSlot)
    (r : MeshClients × List Notify) : Prop where
  inUse : (r.1 i).inUse = true
  filters : MeshFilters r.1
  tells : Tells (HeldByAny t m) (HeldByAny t r.1) r.2

theorem Closing.round {i : MeshSlot} {r : MeshClients × List Notify} (h : Closing t m i r)
    (j : Fin MESH_INGRESS_SUBS_PER_CLIENT) : Closing t m i (meshCloseSub t i r j) := by
  unfold meshCloseSub
  split_ifs with hj
  · exact h
  · have hj' : (r.1 i).subInUse j = true := by simpa using hj
    obtain ⟨hne, hlen⟩ := h.filters i j hj'
    refine ⟨?_, h.filters.update i fun k hk ↦ h.filters i k ?_, h.tells.trans ?_⟩
    · dsimp only
      rw [Function.update_self]
      exact h.inUse
    · dsimp only at hk
      by_cases hkj : k = j
      · rwa [hkj]
      · rwa [Function.update_of_ne hkj] at hk
    · refine tells_withdraw hne hlen ⟨i, j, h.inUse, hj', rfl⟩ (fun k hk ↦ ?_) fun k hk hkf ↦ ?_
      · by_cases hkj : k = j
        · rwa [hkj]
        · rwa [Function.update_of_ne hkj] at hk
      · have hkj : k ≠ j := by
          rintro rfl
          exact hkf rfl
        rwa [Function.update_of_ne hkj]

/-- The rounds free the subscriptions. -/
theorem meshCloseSub_freed (t : TopicTable cfg κ) (i : MeshSlot)
    {l : List (Fin MESH_INGRESS_SUBS_PER_CLIENT)} {r : MeshClients × List Notify}
    {j : Fin MESH_INGRESS_SUBS_PER_CLIENT} (hj : j ∈ l ∨ (r.1 i).subInUse j = false) :
    ((l.foldl (meshCloseSub t i) r).1 i).subInUse j = false := by
  induction l generalizing r with
  | nil => exact hj.resolve_left List.not_mem_nil
  | cons k l ih =>
      refine ih ?_
      unfold meshCloseSub
      split_ifs with hk
      · rcases hj with hj | hj
        · rcases List.mem_cons.mp hj with rfl | hj
          · exact .inr (by simpa using hk)
          · exact .inl hj
        · exact .inr hj
      · simp only [Function.update_self]
        by_cases hjk : j = k
        · exact .inr (by rw [hjk, Function.update_self])
        · rw [Function.update_of_ne hjk]
          exact hj.imp_left fun h ↦ (List.mem_cons.mp h).resolve_left hjk

theorem meshClientClose_tells (hp : cfg.p2pDynamic = true) (hm : MeshFilters m) (i : MeshSlot) :
    MeshTells t m (meshClientClose t m i) := by
  unfold meshClientClose
  split_ifs with huse
  · exact .quiet hm rfl
  · have hfold : ∀ (l : List (Fin MESH_INGRESS_SUBS_PER_CLIENT)) (r : MeshClients × List Notify),
        Closing t m i r → Closing t m i (l.foldl (meshCloseSub t i) r) := by
      intro l
      induction l with
      | nil => exact fun _ hr ↦ hr
      | cons j l ih => exact fun r hr ↦ ih _ (hr.round j)
    have hend := hfold (List.finRange MESH_INGRESS_SUBS_PER_CLIENT) (m, [])
      ⟨by simpa using huse, hm, .nil fun _ ↦ Iff.rfl⟩
    have hfreed := fun j ↦ @meshCloseSub_freed cfg κ t i
      (List.finRange MESH_INGRESS_SUBS_PER_CLIENT) (m, []) j (.inl (List.mem_finRange j))
    generalize (List.finRange MESH_INGRESS_SUBS_PER_CLIENT).foldl (meshCloseSub t i) (m, []) = r
      at hend hfreed
    refine ⟨hend.filters.update i nofun, ?_⟩
    have hnotes : notesOf (r.2.map .notify ++ [.closed i]) = r.2 := by
      rw [notesOf_append, notesOf_notify]
      exact List.append_nil _
    dsimp only
    rw [hnotes]
    refine hend.tells.congr fun f ↦ or_congr_right (exists_congr fun k ↦ exists_congr fun j ↦ ?_)
    by_cases hk : k = i
    · subst hk
      rw [Function.update_self, hfreed j]
      exact iff_of_false (nomatch ·.1) (nomatch ·.2.1)
    · rw [Function.update_of_ne hk]

/-- A new client holds nothing. -/
theorem meshIngressAccept_tells (hm : MeshFilters m) (fd : ℤ) :
    MeshTells t m (meshIngressAccept m fd, []) := by
  unfold meshIngressAccept meshClientAlloc
  cases hfind : (List.finRange MESH_INGRESS_MAX_CLIENTS).find? fun i ↦ !(m i).inUse with
  | none => exact .quiet hm rfl
  | some i =>
      have hfree : (m i).inUse = false := by simpa using List.find?_some hfind
      refine ⟨hm.update i nofun, .nil fun f ↦ or_congr_right ?_⟩
      refine exists_congr fun k ↦ exists_congr fun j ↦ ?_
      rw [Option.map_some]
      dsimp only
      by_cases hk : k = i
      · subst hk
        rw [Function.update_self, hfree]
        exact iff_of_false (nomatch ·.2.1) (nomatch ·.1)
      · rw [Function.update_of_ne hk]

section

variable (hp : cfg.p2pDynamic = true)

include hp

/-- What a round has caused, whether it closes its client or not. -/
theorem MeshTells.closeAfter {m₀ : MeshClients} {l : List MeshOutput}
    (h : MeshTells t m₀ (m, l)) (i : MeshSlot) :
    MeshTells t m₀ ((meshClientClose t m i).1, l ++ (meshClientClose t m i).2) :=
  h.andThen (meshClientClose_tells hp h.filters i)

theorem MeshTells.publishRemoteOne {r : MeshResult} (h : MeshTells t m r) (env : MeshEnv)
    (ref : PubRef) (i : MeshSlot) : MeshTells t m (publishRemoteOne env t ref r i) := by
  unfold MqttBroker.publishRemoteOne
  dsimp only
  split
  · exact h
  · split
    · exact h
    · next j _ =>
        have hsame := (r.1 i).sameTables_deliver (ref.deref r.1) j
        set out := ((r.1 i).deliver (ref.deref r.1) j).1
        set c := ((r.1 i).deliver (ref.deref r.1) j).2
        have hoffered : MeshTells t m (Function.update r.1 i c, r.2 ++ [.offer i out]) :=
          (h.thenUpdate hsame.sameFilters).append rfl
        split
        · exact hoffered.closeAfter hp i
        · next frame _ =>
            have hsent : MeshTells t m (Function.update r.1 i c,
                r.2 ++ [.offer i out] ++ [.send i frame (env.sendOk i)]) := hoffered.append rfl
            split_ifs
            · have hstored := (MeshClient.SameTables.refl c).inflightStore out.packetId frame
                out.qos env.now
              refine hsent.thenUpdate ?_
              dsimp only
              rw [Function.update_self]
              exact hstored.sameFilters
            · exact hsent
            · exact hsent.closeAfter hp i

theorem publishRemote_tells (hm : MeshFilters m) (env : MeshEnv) (ref : PubRef) :
    MeshTells t m (publishRemote env t ref m) := by
  have hfold : ∀ (l : List MeshSlot) (r : MeshResult), MeshTells t m r →
      MeshTells t m (l.foldl (publishRemoteOne env t ref) r) := by
    intro l
    induction l with
    | nil => exact fun _ hr ↦ hr
    | cons i l ih => exact fun r hr ↦ ih _ (hr.publishRemoteOne hp env ref i)
  exact hfold _ (m, []) (.quiet hm rfl)

theorem meshPublishFromIngress_tells (hm : MeshFilters m) (env : MeshEnv) (ref : PubRef) :
    MeshTells t m (meshPublishFromIngress env t ref m) := by
  have hpropagate : MeshTells t m (m, if cfg.p2pDynamic then [.propagate (ref.deref m)] else []) :=
    .quiet hm (by rw [if_pos hp]; rfl)
  exact hpropagate.andThen (publishRemote_tells hp hm env ref)

theorem meshInflightRetry_tells (hm : MeshFilters m) (i : MeshSlot) (now : ℤ)
    (sendOk : Fin MESH_INGRESS_INFLIGHT_MAX → Bool) :
    MeshTells t m (meshInflightRetry t m i now sendOk) := by
  unfold meshInflightRetry
  split_ifs
  · exact .quiet hm rfl
  · have hsends : ∀ l : List (Fin MESH_INGRESS_INFLIGHT_MAX × Bytes),
        notesOf (l.map fun p ↦ .send i p.2 true) = [] := by
      intro l
      rw [notesOf, List.filterMap_map]
      exact List.filterMap_eq_nil_iff.mpr fun _ _ ↦ rfl
    dsimp only
    split
    · exact (MeshTells.quiet hm (hsends _)).thenUpdate ⟨rfl, rfl, rfl⟩
    · next p _ _ =>
        have hsent : MeshTells t m (m, (((m i).retryFrames now).takeWhile fun p ↦ sendOk p.1).map
            (fun p ↦ .send i p.2 true) ++ [.send i p.2 false]) :=
          .quiet hm (by rw [notesOf_append, hsends]; rfl)
        simpa using hsent.closeAfter hp i

theorem meshHandlePublish_tells (hm : MeshFilters m) (env : MeshEnv) (i : MeshSlot)
    (pkt : MqttPacket) : MeshTells t m (meshHandlePublish env t m i pkt) := by
  have hquiet : MeshTells t m (m, []) := .quiet hm rfl
  unfold meshHandlePublish
  split
  · exact hquiet
  · next pub _ =>
      have hpublish := meshPublishFromIngress_tells hp hm env (.value pub) (t := t)
      split_ifs
      · split
        · exact hquiet.replyTo i _
        · split
          · exact meshClientClose_tells hp hm i
          · refine MeshTells.replyTo ?_ i _
            exact hquiet.thenUpdate ⟨rfl, rfl, rfl⟩
      · exact hpublish.replyTo i _
      · exact hpublish

theorem meshHandlePubrel_tells (hm : MeshFilters m) (env : MeshEnv) (i : MeshSlot)
    (id : UInt16) : MeshTells t m (meshHandlePubrel env t m i id) := by
  unfold meshHandlePubrel
  refine MeshTells.replyTo ?_ i _
  split
  · exact .quiet hm rfl
  · next j _ =>
      have hpassed : MeshTells t m (if !((m i).qos2In j).published then
          meshPublishFromIngress env t (.qos2In i j) m else (m, [])) := by
        split_ifs
        · exact meshPublishFromIngress_tells hp hm env _
        · exact .quiet hm rfl
      exact hpassed.thenUpdate ⟨rfl, rfl, rfl⟩

omit hp in
/-- A client holds one filter more. -/
theorem meshHeld_add {i : MeshSlot} (huse : (m i).inUse = true)
    {j : Fin MESH_INGRESS_SUBS_PER_CLIENT} (hfree : (m i).subInUse j = false) (filter : CStr)
    (qos : Fin MESH_INGRESS_SUBS_PER_CLIENT → UInt8) (f : CStr) :
    MeshHeld (Function.update m i { m i with
      subs := Function.update (m i).subs j filter
      qos := qos
      subInUse := Function.update (m i).subInUse j true }) f ↔ f = filter ∨ MeshHeld m f := by
  unfold MeshHeld
  constructor
  · rintro ⟨k, l, hk⟩
    by_cases hki : k = i
    · subst hki
      simp only [Function.update_self] at hk
      by_cases hl : l = j
      · simp only [hl, Function.update_self] at hk
        exact .inl hk.2.2.symm
      · rw [Function.update_of_ne hl, Function.update_of_ne hl] at hk
        exact .inr ⟨k, l, hk⟩
    · rw [Function.update_of_ne hki] at hk
      exact .inr ⟨k, l, hk⟩
  · rintro (rfl | ⟨k, l, hk⟩)
    · exact ⟨i, j, by simp [huse]⟩
    · refine ⟨k, l, ?_⟩
      by_cases hki : k = i
      · subst hki
        have hl : l ≠ j := by
          rintro rfl
          rw [hfree] at hk
          cases hk.2.1
        simpa only [Function.update_self, Function.update_of_ne hl] using hk
      · rwa [Function.update_of_ne hki]

theorem meshClientSubscribe_tells (hm : MeshFilters m) {i : MeshSlot}
    (huse : (m i).inUse = true) {filter : CStr} (hlen : filter.length < MQTT_TOPIC_MAX)
    {qos : UInt8} (hqos : qos ≤ 2) : MeshTells t m
      (Function.update m i (meshClientSubscribe cfg (m i) filter qos).1,
        (meshClientSubscribe cfg (m i) filter qos).2.1.map .notify) := by
  have htake : filter.take (MQTT_TOPIC_MAX - 1) = filter :=
    List.take_of_length_le (Nat.le_sub_one_of_lt hlen)
  have hfits : (Notify.localSubscribe filter qos).fits = true := by
    simp [Notify.fits, hqos, hlen]
  have hquiet : MeshTells t m (m, []) := .quiet hm rfl
  have hnone : MeshTells t m (Function.update m i (m i), []) := hquiet.thenUpdate ⟨rfl, rfl, rfl⟩
  unfold meshClientSubscribe
  rw [if_pos hp]
  dsimp only
  split_ifs with hne
  · exact hnone
  · split
    · next j hfind =>
        have hj := List.find?_some hfind
        simp only [Bool.and_eq_true, decide_eq_true_eq] at hj
        refine ⟨hm.update i (hm i), .one hfits (iff_of_true ?_ rfl) fun f hf ↦ ?_⟩
        · refine .inr ⟨i, j, ?_⟩
          dsimp only [Notify.filter]
          rw [Function.update_self]
          exact ⟨huse, hj⟩
        · have hsame : (m i).SameFilters { m i with qos := Function.update (m i).qos j qos } :=
            ⟨rfl, rfl, rfl⟩
          exact or_congr_right (meshHeld_congr (sameFilters_update hsame) f)
    · split
      · exact hnone
      · next j hfind =>
          have hfree : (m i).subInUse j = false := by simpa using List.find?_some hfind
          have hadd := meshHeld_add huse hfree filter (Function.update (m i).qos j qos)
          rw [htake]
          refine ⟨hm.update i fun k hk ↦ ?_, .one hfits (iff_of_true ?_ rfl) fun f hf ↦ ?_⟩
          · dsimp only at hk ⊢
            by_cases hkj : k = j
            · rw [hkj, Function.update_self]
              exact ⟨hne, hlen⟩
            · rw [Function.update_of_ne hkj] at hk ⊢
              exact hm i k hk
          · exact .inr ((hadd filter).mpr (.inl rfl))
          · exact or_congr_right ((hadd f).trans (or_iff_right hf))

theorem meshHandleSubscribe_tells (hm : MeshFilters m) {i : MeshSlot}
    (huse : (m i).inUse = true) (pkt : MqttPacket) :
    MeshTells t m (meshHandleSubscribe m i cfg pkt) := by
  unfold meshHandleSubscribe
  split
  · next packetId filter qos rest hparse =>
      obtain ⟨hlen, hqos⟩ := packetParseSubscribe_fits hparse (filter, qos) List.mem_cons_self
      exact (meshClientSubscribe_tells hp hm huse hlen hqos).replyTo i _
  · exact .replyTo (.quiet hm rfl) i _

theorem meshClientUnsubscribe_tells (hm : MeshFilters m) {i : MeshSlot}
    (huse : (m i).inUse = true) (filter : CStr) : MeshTells t m
      ((meshClientUnsubscribe t m i filter).1,
        (meshClientUnsubscribe t m i filter).2.map .notify) := by
  unfold meshClientUnsubscribe
  rcases eq_or_ne filter [] with hne | hne
  · rw [if_pos hne]
    exact .quiet hm rfl
  · rw [if_neg hne]
    dsimp only
    have hsub : ∀ j, (if (m i).subInUse j && decide ((m i).subs j = filter) then false
        else (m i).subInUse j) = true → (m i).subInUse j = true := by
      intro j hj
      split_ifs at hj
      exact hj
    refine ⟨hm.update i fun j hj ↦ hm i j (hsub j hj), ?_⟩
    rw [notesOf_notify]
    by_cases hheld : ∃ j, (m i).subInUse j = true ∧ (m i).subs j = filter
    · have hany : ((List.finRange MESH_INGRESS_SUBS_PER_CLIENT).any fun j ↦
          (m i).subInUse j && decide ((m i).subs j = filter)) = true := by
        simpa using hheld
      obtain ⟨j, hj, rfl⟩ := hheld
      simp only [hp, hany, true_and]
      refine tells_withdraw hne (hm i j hj).2 ⟨i, j, huse, hj, rfl⟩ hsub fun k hk hkf ↦ ?_
      rw [if_neg (by simp [hkf])]
      exact hk
    · have hany : ((List.finRange MESH_INGRESS_SUBS_PER_CLIENT).any fun j ↦
          (m i).subInUse j && decide ((m i).subs j = filter)) = false := by
        simpa using hheld
      simp only [hany, Bool.false_eq_true, false_and, and_false, if_false]
      refine .nil fun f ↦ or_congr_right (meshHeld_drop hsub fun j hj hjf ↦ ?_)
      rw [if_neg fun h ↦ hheld ⟨j, by simpa using h⟩]
      exact hj

theorem meshHandleUnsubscribe_tells (hm : MeshFilters m) {i : MeshSlot}
    (huse : (m i).inUse = true) (pkt : MqttPacket) :
    MeshTells t m (meshHandleUnsubscribe t m i pkt) := by
  unfold meshHandleUnsubscribe
  split
  · next filter rest hparse =>
      exact (meshClientUnsubscribe_tells hp hm huse filter).replyTo i _
  · exact .replyTo (.quiet hm rfl) i _

/-- Handling a packet of a mesh-ingress client. -/
theorem meshIngressHandleClient_tells (hm : MeshFilters m) (env : MeshEnv) (i : MeshSlot)
    (recvd : Option MqttPacket) : MeshTells t m (meshIngressHandleClient env t m i recvd) := by
  cases huse : (m i).inUse with
  | false =>
      unfold meshIngressHandleClient
      rw [huse]
      exact .quiet hm rfl
  | true =>
      cases recvd with
      | none =>
          unfold meshIngressHandleClient
          rw [huse]
          exact meshClientClose_tells hp hm i
      | some pkt =>
          have hcase := meshIngressHandleClient_case env t huse pkt
          generalize meshIngressHandleClient env t m i (some pkt) = r at hcase ⊢
          have hquiet : MeshTells t m (m, []) := .quiet hm rfl
          have hmine : ∀ {c : MeshClient}, (m i).SameTables c →
              MeshTells t m (Function.update m i c, []) := fun hc ↦
            hquiet.thenUpdate hc.sameFilters
          cases hcase with
          | publish => exact meshHandlePublish_tells hp hm env i pkt
          | subscribe => exact meshHandleSubscribe_tells hp hm huse pkt
          | unsubscribe => exact meshHandleUnsubscribe_tells hp hm huse pkt
          | ack => exact hmine ((m i).sameTables_inflightAck _)
          | pubrec =>
              have hsame := (m i).sameTables_inflightPubrec pkt.packetId env.now (env.sendOk i)
              unfold meshHandlePubrec
              generalize (m i).inflightPubrec pkt.packetId env.now (env.sendOk i) = r at hsame ⊢
              obtain ⟨c, rel⟩ := r
              exact (hmine hsame).append (by cases rel <;> rfl)
          | pubrel => exact meshHandlePubrel_tells hp hm env i _
          | pingreq => exact hquiet.replyTo i _
          | close => exact meshClientClose_tells hp hm i

end

end

end MqttBroker
