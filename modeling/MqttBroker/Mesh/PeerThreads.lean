import MqttBroker.Mesh.Duplicates
import MqttBroker.Mesh.Routes
import MqttBroker.Lib.Observer

/-!
# The threads of the peer connections

Every TCP connection to a peer has a thread that works on a slot of `conns`
through a pointer.  A step is what a thread does under one lock, or between two.
-/

namespace MqttBroker

variable {cfg : Config} {κ : Type}

/-- `p2p_conn_t`; `κ` tells the TCP connections apart, and `fd` is none for -1. -/
structure PeerConn (κ : Type) where
  fd : Option κ
  inUse : Bool
  connected : Bool
  outbound : Bool
  nodeId : NodeId
  deriving DecidableEq

/-- A slot after `memset`, with `fd` -1. -/
def PeerConn.freed (κ : Type) : PeerConn κ := ⟨none, false, false, false, fun _ ↦ 0⟩

/-- Where a thread is in `peer_loop`. -/
inductive PeerPhase where
  | hello
  /-- a HELLO of this id was received -/
  | received (ann : NodeId)
  /-- before `close_duplicate_conns` -/
  | duplicate (ann : NodeId)
  /-- before `c->connected = 1` -/
  | install (ann : NodeId)
  /-- before `send_slot_update` -/
  | update
  | serving
  /-- before `close_conn` -/
  | closing
  /-- in `close_conn` before `send_slot_clear`, with the id of the peer -/
  | clearing (had : Option NodeId)
  /-- in `close_conn` before `conn_exists` -/
  | looking (id : NodeId)
  /-- in `close_conn` before `p2p_router_remove_node` -/
  | removing (id : NodeId)
  | returned
  deriving DecidableEq

structure PeerThread (cfg : Config) where
  slot : Fin cfg.peerMax
  phase : PeerPhase

/-- The static variables `conns` and `send_slots`, the threads and the route table. -/
structure PeerState (cfg : Config) (κ : Type) where
  selfId : NodeId
  conns : Fin cfg.peerMax → PeerConn κ
  /-- the connection in a send slot -/
  sendSlots : Fin cfg.peerMax → Option κ
  threads : κ → Option (PeerThread cfg)
  routes : RouteTable cfg

inductive PeerStep (κ : Type) where
  /-- `alloc_conn` for a new TCP connection, and `spawn_peer` -/
  | alloc (k : κ) (outbound : Bool)
  /-- the exchange of HELLO frames; it fails, or the peer has this id -/
  | hello (k : κ) (ann : Option NodeId)
  /-- `conn_exists` and `keep_new` -/
  | check (k : κ)
  | closeDuplicates (k : κ)
  | install (k : κ)
  | updateSend (k : κ)
  /-- a SUB_NOTIFY is received and handled -/
  | subscribe (k : κ) (owner : NodeId) (filter : CStr) (qos : UInt8)
  /-- an UNSUB_NOTIFY is received and handled -/
  | unsubscribe (k : κ) (owner : NodeId) (filter : CStr)
  /-- a P2P_PUBLISH is received and handled -/
  | receive (k : κ)
  /-- another HELLO is received, and `send_slot_update` called -/
  | helloAgain (k : κ)
  /-- `recv_frame` fails -/
  | fail (k : κ)
  /-- `close_conn` under `peer_lock` -/
  | close (k : κ)
  | clearSend (k : κ)
  | look (k : κ)
  | remove (k : κ)

namespace PeerState

variable (s : PeerState cfg κ)

def start (cfg : Config) (κ : Type) (selfId : NodeId) : PeerState cfg κ :=
  ⟨selfId, fun _ ↦ .freed κ, fun _ ↦ none, fun _ ↦ none, .init cfg⟩

/-- The slot that `alloc_conn` takes. -/
def freeSlot : Option (Fin cfg.peerMax) :=
  (List.finRange cfg.peerMax).find? fun i ↦ !(s.conns i).inUse

/-- A connection to a node is in use, in another slot than `except`. -/
def LinkedTo (id : NodeId) (except : Option (Fin cfg.peerMax)) : Prop :=
  ∃ i, some i ≠ except ∧ (s.conns i).inUse = true ∧ (s.conns i).connected = true ∧
    (s.conns i).nodeId = id

instance (id : NodeId) (except : Option (Fin cfg.peerMax)) : Decidable (s.LinkedTo id except) :=
  inferInstanceAs (Decidable (∃ _, _ ∧ _ ∧ _ ∧ _))

/-- What `send_slot_update` puts into a send slot. -/
def sent (i : Fin cfg.peerMax) : Option κ :=
  if (s.conns i).connected then (s.conns i).fd else none

/-- The slots that `close_duplicate_conns` frees. -/
def duplicates (id : NodeId) (except i : Fin cfg.peerMax) : Bool :=
  i ≠ except && (s.conns i).inUse && (s.conns i).connected && (s.conns i).nodeId = id

variable [DecidableEq κ]

/-- Thread `k` goes on to a phase. -/
def goto (k : κ) (t : PeerThread cfg) (phase : PeerPhase) : PeerState cfg κ :=
  { s with threads := Function.update s.threads k (some { t with phase := phase }) }

/-- The slot of a thread gets a new value. -/
def setConn (i : Fin cfg.peerMax) (c : PeerConn κ) : PeerState cfg κ :=
  { s with conns := Function.update s.conns i c }

/-- A step of thread `k`, which is `t`. -/
def threadStep (k : κ) (t : PeerThread cfg) (e : PeerStep κ) : Option (PeerState cfg κ) :=
  match e, t.phase with
  | .hello _ none, .hello => some (s.goto k t .closing)
  | .hello _ (some ann), .hello => some (s.goto k t (.received ann))
  | .check _, .received ann =>
      if s.LinkedTo ann (some t.slot) then
        if !keepNew s.selfId ann (s.conns t.slot).outbound then some (s.goto k t .closing)
        else some (s.goto k t (.duplicate ann))
      else some (s.goto k t (.install ann))
  | .closeDuplicates _, .duplicate ann =>
      let s' := { s with
        conns := fun i ↦ if s.duplicates ann t.slot i then .freed κ else s.conns i
        sendSlots := fun i ↦ if s.duplicates ann t.slot i then none else s.sendSlots i }
      some (s'.goto k t (.install ann))
  | .install _, .install ann =>
      let c := { s.conns t.slot with
        nodeId := ann
        connected := true }
      some ((s.setConn t.slot c).goto k t .update)
  | .updateSend _, .update =>
      let s' := { s with sendSlots := Function.update s.sendSlots t.slot (s.sent t.slot) }
      some (s'.goto k t .serving)
  -- the filter of a frame is a string in `MQTT_TOPIC_MAX` bytes
  | .subscribe _ owner filter qos, .serving =>
      if filter.length < MQTT_TOPIC_MAX then
        some { s with
          routes := (s.routes.remoteSubscribe owner filter qos (s.conns t.slot).nodeId).2 }
      else none
  | .unsubscribe _ owner filter, .serving =>
      some { s with routes := (s.routes.remoteUnsubscribe owner filter).2 }
  | .receive _, .serving => some s
  | .helloAgain _, .serving => some { s with
      sendSlots := Function.update s.sendSlots t.slot (s.sent t.slot) }
  | .fail _, .serving => some (s.goto k t .closing)
  | .close _, .closing =>
      let c := s.conns t.slot
      some ((s.setConn t.slot (.freed κ)).goto k t
        (.clearing (if c.connected then some c.nodeId else none)))
  | .clearSend _, .clearing had =>
      let s' := { s with sendSlots := Function.update s.sendSlots t.slot none }
      some (s'.goto k t (had.elim .returned .looking))
  | .look _, .looking id =>
      some (s.goto k t (if s.LinkedTo id none then .returned else .removing id))
  | .remove _, .removing id =>
      some ({ s with routes := s.routes.removeNode id }.goto k t .returned)
  | _, _ => none

end PeerState

/-- The thread whose step it is. -/
def PeerStep.thread : PeerStep κ → κ
  | .alloc k _ | .hello k _ | .check k | .closeDuplicates k | .install k | .updateSend k |
    .subscribe k _ _ _ | .unsubscribe k _ _ | .receive k | .helloAgain k | .fail k | .close k |
    .clearSend k | .look k | .remove k => k

/-- One step of the program. -/
def peerStep [DecidableEq κ] (s : PeerState cfg κ) (e : PeerStep κ) : Option (PeerState cfg κ) :=
  match e with
  | .alloc k outbound =>
      if s.threads k |>.isSome then none
      else
        s.freeSlot.map fun i ↦
          let c : PeerConn κ := ⟨some k, true, false, outbound, fun _ ↦ 0⟩
          (s.setConn i c).goto k ⟨i, .hello⟩ .hello
  | e => (s.threads e.thread).bind fun t ↦ s.threadStep e.thread t e

/-! ## Whose connection a thread works on -/

/-- The thread is done with its slot. -/
def PeerPhase.Done : PeerPhase → Prop
  | .looking _ | .removing _ | .returned => True
  | _ => False

/-- A slot belongs to one thread at most, with what is in it. -/
structure SlotsOwned (s : PeerState cfg κ) : Prop where
  conn : ∀ k t, s.threads k = some t → ¬ t.phase.Done →
    ∀ x, (s.conns t.slot).fd = some x → x = k
  send : ∀ k t, s.threads k = some t → ¬ t.phase.Done → ∀ x, s.sendSlots t.slot = some x → x = k
  one : ∀ k k' t t', s.threads k = some t → s.threads k' = some t' → ¬ t.phase.Done →
    ¬ t'.phase.Done → t.slot = t'.slot → k = k'
  idle : ∀ i, (∀ k t, s.threads k = some t → t.slot = i → t.phase.Done) → s.sendSlots i = none

namespace SlotsOwned

variable [DecidableEq κ] {s : PeerState cfg κ} {k : κ} {t : PeerThread cfg} {phase : PeerPhase}

theorem goto (h : SlotsOwned s) (ht : s.threads k = some t) (hdone : t.phase.Done → phase.Done)
    (hidle : phase.Done → ¬ t.phase.Done → s.sendSlots t.slot = none) :
    SlotsOwned (s.goto k t phase) := by
  have hold : ∀ {k' t'}, (s.goto k t phase).threads k' = some t' → ¬ t'.phase.Done →
      ∃ t₀, s.threads k' = some t₀ ∧ ¬ t₀.phase.Done ∧ t₀.slot = t'.slot := by
    intro k' t' ht' hlive
    by_cases hk : k' = k
    · subst hk
      obtain rfl : { t with phase := phase } = t' := by simpa [PeerState.goto] using ht'
      exact ⟨t, ht, fun hd ↦ hlive (hdone hd), rfl⟩
    · have hsame : s.threads k' = some t' := by simpa [PeerState.goto, hk] using ht'
      exact ⟨t', hsame, hlive, rfl⟩
  refine ⟨fun k' t' ht' hlive x hx ↦ ?_, fun k' t' ht' hlive x hx ↦ ?_,
    fun k₁ k₂ t₁ t₂ h₁ h₂ hl₁ hl₂ hslot ↦ ?_, fun i hi ↦ ?_⟩
  · obtain ⟨t₀, ht₀, hl₀, hslot⟩ := hold ht' hlive
    exact h.conn k' t₀ ht₀ hl₀ x (by rwa [hslot])
  · obtain ⟨t₀, ht₀, hl₀, hslot⟩ := hold ht' hlive
    exact h.send k' t₀ ht₀ hl₀ x (by rwa [hslot])
  · obtain ⟨t₁', ht₁, hl₁', hs₁⟩ := hold h₁ hl₁
    obtain ⟨t₂', ht₂, hl₂', hs₂⟩ := hold h₂ hl₂
    exact h.one k₁ k₂ t₁' t₂' ht₁ ht₂ hl₁' hl₂' (hs₁.trans (hslot.trans hs₂.symm))
  · by_cases hleft : t.slot = i ∧ ¬ t.phase.Done
    · obtain ⟨rfl, hlive⟩ := hleft
      exact hidle (hi k { t with phase := phase } (by simp [PeerState.goto]) rfl) hlive
    · refine h.idle i fun k' t' ht' hi' ↦ ?_
      by_cases hk : k' = k
      · subst hk
        obtain rfl := Option.some.inj (ht.symm.trans ht')
        exact not_not.mp fun hlive ↦ hleft ⟨hi', hlive⟩
      · exact hi k' t' (by simpa [PeerState.goto, hk] using ht') hi'

omit [DecidableEq κ] in
/-- Slots may lose what is in them. -/
theorem clear (h : SlotsOwned s) {conns : Fin cfg.peerMax → PeerConn κ}
    {sendSlots : Fin cfg.peerMax → Option κ}
    (hconns : ∀ i x, (conns i).fd = some x → (s.conns i).fd = some x)
    (hsend : ∀ i, sendSlots i = s.sendSlots i ∨ sendSlots i = none) :
    SlotsOwned { s with
      conns := conns
      sendSlots := sendSlots } where
  conn k t ht hlive x hx := h.conn k t ht hlive x (hconns _ _ hx)
  send k t ht hlive x hx := (hsend t.slot).elim
    (fun hs ↦ h.send k t ht hlive x (hs ▸ hx)) fun hs ↦ (nomatch hs.symm.trans hx)
  one := h.one
  idle i hi := (hsend i).elim (fun hs ↦ hs.trans (h.idle i hi)) id

omit [DecidableEq κ] in
/-- A thread enters its connection into its send slot. -/
theorem updateSend (h : SlotsOwned s) (ht : s.threads k = some t) (hlive : ¬ t.phase.Done) :
    SlotsOwned { s with sendSlots := Function.update s.sendSlots t.slot (s.sent t.slot) } where
  conn := h.conn
  send k' t' ht' hlive' x hx := by
    by_cases hslot : t'.slot = t.slot
    · obtain rfl := h.one k' k t' t ht' ht hlive' hlive hslot
      dsimp only at hx
      rw [hslot, Function.update_self, PeerState.sent] at hx
      split_ifs at hx
      exact h.conn k' t ht hlive x hx
    · dsimp only at hx
      rw [Function.update_of_ne hslot] at hx
      exact h.send k' t' ht' hlive' x hx
  one := h.one
  idle i hi := by
    have hne : i ≠ t.slot := fun heq ↦ hlive (hi k t ht heq.symm)
    dsimp only
    rw [Function.update_of_ne hne]
    exact h.idle i hi

theorem alloc (h : SlotsOwned s) {i : Fin cfg.peerMax} (hnew : s.threads k = none)
    (hdone : ∀ k t, s.threads k = some t → t.slot = i → t.phase.Done) (c : PeerConn κ)
    (hc : c.fd = some k) :
    SlotsOwned ((s.setConn i c).goto k ⟨i, .hello⟩ .hello) := by
  have hthreads : ∀ {k' t'}, ((s.setConn i c).goto k ⟨i, .hello⟩ .hello).threads k' = some t' →
      k' = k ∧ t'.slot = i ∨ k' ≠ k ∧ s.threads k' = some t' := by
    intro k' t' ht'
    by_cases hk : k' = k
    · subst hk
      obtain rfl : (⟨i, .hello⟩ : PeerThread cfg) = t' := by
        simpa [PeerState.goto, PeerState.setConn] using ht'
      exact .inl ⟨rfl, rfl⟩
    · exact .inr ⟨hk, by simpa [PeerState.goto, PeerState.setConn, hk] using ht'⟩
  have hsend : s.sendSlots i = none := h.idle i hdone
  refine ⟨fun k' t' ht' hlive x hx ↦ ?_, fun k' t' ht' hlive x hx ↦ ?_,
    fun k₁ k₂ t₁ t₂ h₁ h₂ hl₁ hl₂ hslot ↦ ?_, fun j hj ↦ ?_⟩
  · rcases hthreads ht' with ⟨rfl, hslot⟩ | ⟨-, ht₀⟩
    · have hx' : c.fd = some x := by simpa [PeerState.goto, PeerState.setConn, hslot] using hx
      exact (Option.some.inj (hc.symm.trans hx')).symm
    · have hne : t'.slot ≠ i := fun heq ↦ hlive (hdone k' t' ht₀ heq)
      exact h.conn k' t' ht₀ hlive x (by simpa [PeerState.goto, PeerState.setConn, hne] using hx)
  · rcases hthreads ht' with ⟨rfl, hslot⟩ | ⟨-, ht₀⟩
    · have hx' : s.sendSlots i = some x := hslot ▸ hx
      rw [hsend] at hx'
      cases hx'
    · exact h.send k' t' ht₀ hlive x hx
  · rcases hthreads h₁ with ⟨rfl, hs₁⟩ | ⟨-, ht₁⟩ <;> rcases hthreads h₂ with ⟨rfl, hs₂⟩ | ⟨-, ht₂⟩
    · rfl
    · exact absurd (hdone k₂ t₂ ht₂ (hslot.symm.trans hs₁)) hl₂
    · exact absurd (hdone k₁ t₁ ht₁ (hslot.trans hs₂)) hl₁
    · exact h.one k₁ k₂ t₁ t₂ ht₁ ht₂ hl₁ hl₂ hslot
  · by_cases hij : j = i
    · exact hij ▸ hsend
    · refine h.idle j fun k' t' ht' hslot ↦ ?_
      have hk : k' ≠ k := by
        rintro rfl
        rw [hnew] at ht'
        cases ht'
      exact hj k' t' (by simpa [PeerState.goto, PeerState.setConn, hk] using ht') hslot

end SlotsOwned

section

open Observer

variable [DecidableEq κ] {s s' : PeerState cfg κ} {e : PeerStep κ}

end

/-! ## A slot that is used again too early -/

section

open Observer

def lowId : NodeId := fun _ ↦ 1

def highId : NodeId := fun _ ↦ 2

/-- Connection `k` is opened to the broker with the higher id, and used. -/
def openTo (k : Fin 3) : List (PeerStep (Fin 3)) :=
  [.alloc k true, .hello k (some highId), .check k, .install k, .updateSend k]

end

end MqttBroker
