import MqttBroker.Mesh.Loops

/-!
# Publishes that come back

A broker does not enter its own publishes into its seen cache.  One that is sent
back to it is handed to the local subscribers once more.
-/

namespace MqttBroker

open Observer

variable {cfg : Config} {N : Type} {net : P2pNet cfg N} {s s' : ForwardState cfg N}
  {n : ForwardNotes} {e : PeerEvent N}

/-- The step hands a broker's own publish to `topic_publish_remote`. -/
def HandsOwn (net : P2pNet cfg N) (s : ForwardState cfg N) : PeerEvent N → Prop
  | .publish _ _ _ _ => False
  | .deliver i _ => ∃ f, s.flight[i]? = some f ∧ s.HandsOver f ∧
      net.id f.dst = f.msg.originId

/-- A router that relays a publish has no link to its origin through which it
would send the publish back. -/
def NotReturned (net : P2pNet cfg N) (s : ForwardState cfg N) (_ : ForwardNotes) :
    PeerEvent N → Prop
  | .publish _ _ _ _ => True
  | .deliver i ok => ∀ f, s.flight[i]? = some f → s.HandsOver f → net.router f.dst = true →
      ∀ m ∈ net.sendFromRouter f.dst ok f.msg.topic (some (net.id f.src)),
        net.id m ≠ f.msg.originId

theorem mem_relayed_router {f g : PeerFrame N} {ok : N → Bool} (h : g ∈ s.relayed net f ok) :
    net.router f.dst = true := by
  unfold ForwardState.relayed at h
  split_ifs at h with hstop
  · cases h
  · cases h
  · by_contra hleaf
    exact hstop (.inr (by simpa using hleaf))

variable [DecidableEq N]

/-- Where no publish is sent back, no frame under way is for its origin. -/
theorem notReturned_step (h : ∀ f ∈ s.flight, net.id f.dst ≠ f.msg.originId)
    (hallowed : NotReturned net s n e) (hstep : forward net s e = some s') :
    ∀ f ∈ s'.flight, net.id f.dst ≠ f.msg.originId := by
  cases e with
  | publish m pub owner ok =>
      cases hstep
      intro f hf
      rcases List.mem_append.mp hf with hf | hf
      · exact h f hf
      · obtain ⟨-, hmsg, hdst⟩ := mem_published hf
        rw [hmsg]
        exact net.id_ne m _ (P2pNet.firstHops_mem hdst)
  | deliver i ok =>
      obtain ⟨f, hf, rfl⟩ := deliver_cases hstep
      intro g hg
      rcases List.mem_append.mp hg with hg | hg
      · exact h g (List.mem_of_mem_eraseIdx hg)
      · obtain ⟨hover, -, hmsg, hdst⟩ := mem_relayed hg
        rw [hmsg]
        exact hallowed f hf hover (mem_relayed_router hg) _ hdst

/-- In every network and every order of deliveries: as long as no router sends a
publish back to its origin, no broker hands its own publish to its subscribers. -/
theorem own_publish_not_handed {s₀ : ForwardState cfg N} (hstart : s₀.flight = [])
    (h : Reach (forwarding net) (NotReturned net) s₀ .start s n) (e : PeerEvent N) :
    ¬ HandsOwn net s e := by
  have hflight : ∀ f ∈ s.flight, net.id f.dst ≠ f.msg.originId :=
    h.invariant (I := fun s _ ↦ ∀ f ∈ s.flight, net.id f.dst ≠ f.msg.originId)
      (by simp [hstart]) fun _ hI hallowed hstep ↦ notReturned_step hI hallowed hstep
  cases e with
  | publish => exact id
  | deliver i ok =>
      rintro ⟨f, hf, -, horigin⟩
      exact hflight f (List.mem_of_getElem? hf) horigin

/-- The statement at a publish that has reached the next broker of the ring. -/
theorem own_publish_not_handed_ring : ∃ s, ([publishSlash 0].foldlM (forward ring) quiet) = some s ∧
    ∀ e, ¬ HandsOwn ring s e := by
  have hreach : Reach (forwarding ring) (NotReturned ring) quiet .start _ _ :=
    Reach.start.step (e := publishSlash 0) trivial rfl
  exact ⟨_, rfl, own_publish_not_handed rfl hreach⟩

/-- In the ring a publish comes back to the broker that accepted it. -/
theorem own_publish_comes_back : ∃ s,
    ([publishSlash 0] ++ deliverOldest 2).foldlM (forward ring) quiet = some s ∧
      HandsOwn ring s (.deliver 0 fun _ ↦ true) := by
  have hback : (([publishSlash 0] ++ deliverOldest 2).foldlM (forward ring) quiet).bind
      (fun s ↦ s.flight[0]?.map fun f ↦ decide (s.HandsOver f ∧ ring.id f.dst = f.msg.originId)) =
        some true := by
    decide +kernel
  obtain ⟨s, hs, hrest⟩ := Option.bind_eq_some_iff.mp hback
  obtain ⟨f, hf, hover⟩ := Option.map_eq_some_iff.mp hrest
  obtain ⟨hover, horigin⟩ := of_decide_eq_true hover
  exact ⟨s, hs, f, hf, hover, horigin⟩

end MqttBroker
