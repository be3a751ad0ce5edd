import MqttBroker.Mesh.Router
import MqttBroker.Mesh.Seen
import MqttBroker.Lib.Observer

/-!
# Publishes between brokers

A network of brokers with the links, roles and route tables they have at one
time, and the P2P_PUBLISH frames they send each other.  Any frame that is under
way may be the next to be handled.
-/

namespace MqttBroker

variable {cfg : Config} {N : Type}

/-- The links, roles and route tables of the brokers `N`. -/
structure P2pNet (cfg : Config) (N : Type) where
  id : N → NodeId
  /-- `p2p_election_role` is `ROUTER` -/
  router : N → Bool
  routes : N → RouteTable cfg
  /-- the connected entries of `send_slots`, in order -/
  peers : N → List N
  peers_le : ∀ n, (peers n).length ≤ cfg.peerMax
  id_ne : ∀ n, ∀ m ∈ peers n, id m ≠ id n

/-- A P2P_PUBLISH frame under way. -/
structure PeerFrame (N : Type) where
  src : N
  dst : N
  msg : P2pPublishMsg
  deriving DecidableEq

/-- What changes while publishes are forwarded. -/
structure ForwardState (cfg : Config) (N : Type) where
  seen : N → SeenCache cfg
  localSeq : N → UInt16
  flight : List (PeerFrame N)

inductive PeerEvent (N : Type) where
  /-- `p2p_publish_from_local`; `owner` is the answer of `p2p_shard_owner_for_topic`
  and `ok` says which sends succeed -/
  | publish (n : N) (pub : MqttPublish) (owner : NodeId) (ok : N → Bool)
  /-- one of the frames is handled -/
  | deliver (i : ℕ) (ok : N → Bool)

def PeerEvent.IsDelivery : PeerEvent N → Prop
  | .publish _ _ _ _ => False
  | .deliver _ _ => True

/-! ## The code -/

namespace P2pNet

variable (net : P2pNet cfg N) (n : N) (ok : N → Bool)

/-- `send_prebuilt_publish_to_node_unlocked`: the broker a frame for this id is sent to. -/
def sendTo (hop : NodeId) : Option N :=
  ((net.peers n).find? fun m ↦ net.id m = hop).filter (ok ·)

/-- `p2p_send_publish_from_router_prebuilt`: where the frame is sent. -/
def sendFromRouter (topic : CStr) (exclude : Option NodeId) : List N :=
  ((net.routes n).findNextHops topic exclude).filterMap (net.sendTo n ok)

/-- `flood_publish_to_connected_peers` without a peer to leave out. -/
def flood : List N := (net.peers n).filterMap fun m ↦ net.sendTo n ok (net.id m)

/-- The sends of `p2p_publish_from_local`. -/
def firstHops (topic : CStr) (owner : NodeId) : List N :=
  let routed := net.sendFromRouter n ok topic none
  let routedOrFlood := if routed = [] then net.flood n ok else routed
  if owner = net.id n then routedOrFlood
  else
    match net.sendTo n ok owner with
    | some m => [m]
    | none => routedOrFlood

/-- The message that `p2p_publish_from_local` makes of a publish. -/
def message (seq : UInt16) (pub : MqttPublish) : P2pPublishMsg :=
  ⟨net.id n, seq, pub.topic, pub.payload, pub.qos, pub.retain⟩

end P2pNet

/-- The checks of `p2p_publish_from_local`. -/
def localPublishOk (pub : MqttPublish) : Bool :=
  pub.qos ≤ 2 && pub.payload.length ≤ MQTT_PAYLOAD_MAX && pub.topic.length < MQTT_TOPIC_MAX

section

variable [DecidableEq N] (net : P2pNet cfg N) (s : ForwardState cfg N)

/-- The frame is not known to the broker it arrives at. -/
def ForwardState.Unseen (f : PeerFrame N) : Prop := (seenBefore (s.seen f.dst) f.msg).1 = false

instance (f : PeerFrame N) : Decidable (s.Unseen f) := inferInstanceAs (Decidable (_ = _))

/-- `handle_publish` passes the message to `topic_publish_remote`. -/
def ForwardState.HandsOver (f : PeerFrame N) : Prop :=
  s.Unseen f ∧ f.msg.payload.length ≤ MQTT_PAYLOAD_MAX

instance (f : PeerFrame N) : Decidable (s.HandsOver f) := inferInstanceAs (Decidable (_ ∧ _))

/-- What `handle_publish` sends. -/
def ForwardState.relayed (f : PeerFrame N) (ok : N → Bool) : List (PeerFrame N) :=
  if ¬ s.HandsOver f ∨ !net.router f.dst then []
  else if (buildPublishFrame f.msg).isNone then []
  else (net.sendFromRouter f.dst ok f.msg.topic (some (net.id f.src))).map (⟨f.dst, ·, f.msg⟩)

/-- What `p2p_publish_from_local` sends. -/
def ForwardState.published (n : N) (pub : MqttPublish) (owner : NodeId) (ok : N → Bool) :
    List (PeerFrame N) :=
  let msg := net.message n (s.localSeq n + 1) pub
  if !localPublishOk pub ∨ (buildPublishFrame msg).isNone then []
  else (net.firstHops n ok pub.topic owner).map (⟨n, ·, msg⟩)

/-- The frames sent in a step. -/
def sentBy : PeerEvent N → List (PeerFrame N)
  | .publish n pub owner ok => s.published net n pub owner ok
  | .deliver i ok =>
      match s.flight[i]? with
      | some f => s.relayed net f ok
      | none => []

/-- One step of a broker. -/
def forward (e : PeerEvent N) : Option (ForwardState cfg N) :=
  match e with
  | .publish n pub _ _ =>
      some { s with
        localSeq := if localPublishOk pub then Function.update s.localSeq n (s.localSeq n + 1)
          else s.localSeq
        flight := s.flight ++ sentBy net s e }
  | .deliver i _ =>
      s.flight[i]?.map fun f ↦
        { s with
          seen := Function.update s.seen f.dst (seenBefore (s.seen f.dst) f.msg).2
          flight := s.flight.eraseIdx i ++ sentBy net s e }

end

/-! ## How many frames a step sends -/

namespace P2pNet

variable {net : P2pNet cfg N} {n : N} {ok : N → Bool}

theorem sendTo_mem {hop : NodeId} {m : N} (h : net.sendTo n ok hop = some m) :
    m ∈ net.peers n ∧ net.id m = hop := by
  obtain ⟨h, -⟩ := Option.filter_eq_some_iff.mp h
  exact ⟨List.mem_of_find?_eq_some h, by simpa using List.find?_some h⟩

theorem sendFromRouter_mem {topic : CStr} {exclude : Option NodeId} {m : N}
    (h : m ∈ net.sendFromRouter n ok topic exclude) : m ∈ net.peers n := by
  obtain ⟨hop, -, hsend⟩ := List.mem_filterMap.mp h
  exact (sendTo_mem hsend).1

/-- The first frames of a publish go to peers. -/
theorem firstHops_mem {topic : CStr} {owner : NodeId} {m : N}
    (h : m ∈ net.firstHops n ok topic owner) : m ∈ net.peers n := by
  have hrouted : m ∈ (if net.sendFromRouter n ok topic none = [] then net.flood n ok
      else net.sendFromRouter n ok topic none) → m ∈ net.peers n := by
    intro h
    split_ifs at h
    · obtain ⟨x, -, hsend⟩ := List.mem_filterMap.mp h
      exact (sendTo_mem hsend).1
    · exact sendFromRouter_mem h
  unfold firstHops at h
  split_ifs at h
  · exact hrouted h
  · split at h
    · next hsend =>
        obtain rfl := List.mem_singleton.mp h
        exact (sendTo_mem hsend).1
    · exact hrouted h

theorem flood_le : (net.flood n ok).length ≤ cfg.peerMax :=
  (List.length_filterMap_le _ _).trans (net.peers_le n)

theorem sendFromRouter_le {topic : CStr} {exclude : Option NodeId} :
    (net.sendFromRouter n ok topic exclude).length ≤ cfg.peerMax :=
  (List.length_filterMap_le _ _).trans (RouteTable.findNextHops_le _ _ _)

theorem firstHops_le {topic : CStr} {owner : NodeId} :
    (net.firstHops n ok topic owner).length ≤ cfg.peerMax := by
  have hrouted : (if net.sendFromRouter n ok topic none = [] then net.flood n ok
      else net.sendFromRouter n ok topic none).length ≤ cfg.peerMax := by
    split_ifs
    · exact flood_le
    · exact sendFromRouter_le
  unfold firstHops
  split_ifs
  · exact hrouted
  · split
    · exact cfg.peerMax_pos
    · exact hrouted

end P2pNet

section

variable {net : P2pNet cfg N} {s : ForwardState cfg N}

/-- A step sends to the peers of one broker at most. -/
theorem sentBy_le (e : PeerEvent N) : (sentBy net s e).length ≤ cfg.peerMax := by
  cases e with
  | publish n pub owner ok =>
      unfold sentBy ForwardState.published
      dsimp only
      split_ifs
      · exact Nat.zero_le _
      · simpa using P2pNet.firstHops_le
  | deliver i ok =>
      unfold sentBy
      dsimp only
      split
      · unfold ForwardState.relayed
        split_ifs
        · exact Nat.zero_le _
        · exact Nat.zero_le _
        · simpa using P2pNet.sendFromRouter_le
      · exact Nat.zero_le _

/-! ## The steps -/

theorem mem_relayed {f g : PeerFrame N} {ok : N → Bool} (h : g ∈ s.relayed net f ok) :
    s.HandsOver f ∧ g.src = f.dst ∧ g.msg = f.msg ∧
      g.dst ∈ net.sendFromRouter f.dst ok f.msg.topic (some (net.id f.src)) := by
  unfold ForwardState.relayed at h
  split_ifs at h with hstop
  · cases h
  · cases h
  · obtain ⟨m, hm, rfl⟩ := List.mem_map.mp h
    exact ⟨not_not.mp fun hnot ↦ hstop (.inl hnot), rfl, rfl, hm⟩

theorem mem_published {n : N} {pub : MqttPublish} {owner : NodeId} {ok : N → Bool}
    {g : PeerFrame N} (h : g ∈ s.published net n pub owner ok) :
    g.src = n ∧ g.msg = net.message n (s.localSeq n + 1) pub ∧
      g.dst ∈ net.firstHops n ok pub.topic owner := by
  unfold ForwardState.published at h
  dsimp only at h
  split_ifs at h
  · cases h
  · obtain ⟨m, hm, rfl⟩ := List.mem_map.mp h
    exact ⟨rfl, rfl, hm⟩

theorem deliver_cases [DecidableEq N] {s' : ForwardState cfg N} {i : ℕ} {ok : N → Bool}
    (h : forward net s (.deliver i ok) = some s') : ∃ f, s.flight[i]? = some f ∧ s' = { s with
      seen := Function.update s.seen f.dst (seenBefore (s.seen f.dst) f.msg).2
      flight := s.flight.eraseIdx i ++ s.relayed net f ok } := by
  obtain ⟨f, hf, rfl⟩ := Option.map_eq_some_iff.mp h
  exact ⟨f, hf, by simp [sentBy, hf]⟩

end

end MqttBroker
