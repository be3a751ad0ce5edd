import MqttBroker.Lib.Backoff
import MqttBroker.Mesh.Candidates
import MqttBroker.Mesh.PeerThreads

/-!
# Static seeds and the connector

The seed table of `p2p_peer.c` and `connect_loop`, the one thread that opens
connections to peers.  While it works the other threads accept and close
connections, and seeds may be added and cleared.  However the steps fall, a seed
is not dialled before the delay that its own history asks for is over.
-/

namespace MqttBroker

open Backoff Observer

variable {cfg : Config} {κ : Type} {m : ℕ}

def P2P_CONNECT_MS : ℕ := 3000

def P2P_CONNECT_BACKOFF_MAX_MS : ℕ := 30000

def INADDR_NONE : UInt32 := 0xffffffff

/-- An address and a port. -/
abbrev PeerAddr := UInt32 × UInt16

/-! ## The table -/

/-- `p2p_static_seed_t` -/
structure StaticSeed where
  addr : UInt32
  p2pPort : UInt16
  inUse : Bool
  retryDelayMs : UInt32
  nextAttemptMs : ℤ

namespace StaticSeed

/-- An entry after `memset`. -/
def zeroed : StaticSeed := ⟨0, 0, false, 0, 0⟩

def peerAddr (seed : StaticSeed) : PeerAddr := (seed.addr, seed.p2pPort)

end StaticSeed

/-- `seed_retry_jitter_ms` -/
def seedRetryJitterMs (a : PeerAddr) : UInt32 :=
  let port := a.2.toUInt32
  let h := a.1 ^^^ (port <<< 16) ^^^ port
  let h := h ^^^ (h >>> 16)
  let h := h * 2246822519
  let h := h ^^^ (h >>> 13)
  h % 1000

/-- What `static_seed_mark_result` does to the entry it finds. -/
def StaticSeed.marked (seed : StaticSeed) (connected : Bool) (now : ℤ) : StaticSeed :=
  let connectMs := UInt32.ofNat P2P_CONNECT_MS
  let maxMs := UInt32.ofNat P2P_CONNECT_BACKOFF_MAX_MS
  let delay :=
    if connected then connectMs
    else if seed.retryDelayMs < connectMs then connectMs
    else
      let next := seed.retryDelayMs * 2
      if maxMs < next then maxMs else next
  { seed with
    retryDelayMs := delay
    nextAttemptMs := now + delay.toNat + (seedRetryJitterMs seed.peerAddr).toNat }

/-- What `p2p_static_seed_add` does to a free entry. -/
def StaticSeed.added (seed : StaticSeed) (a : PeerAddr) : StaticSeed :=
  { seed with
    addr := a.1
    p2pPort := a.2
    inUse := true }

/-- `static_seeds`, where `m` is `P2P_STATIC_SEED_MAX`. -/
abbrev SeedTable (m : ℕ) := Fin m → StaticSeed

namespace SeedTable

variable (t : SeedTable m)

/-- The entry with this address. -/
def entry (a : PeerAddr) : Option (Fin m) :=
  (List.finRange m).find? fun i ↦ (t i).inUse && (t i).peerAddr = a

/-- `p2p_static_seed_clear` -/
def clear : SeedTable m := fun _ ↦ .zeroed

/-- `p2p_static_seed_add` -/
def add (a : PeerAddr) : ℤ × SeedTable m :=
  if a.1 = INADDR_NONE ∨ a.1 = 0 ∨ a.2 = 0 then (-1, t)
  else if (t.entry a).isSome then (0, t)
  else
    match (List.finRange m).find? fun i ↦ !(t i).inUse with
    | none => (-1, t)
    | some i => (0, Function.update t i ((t i).added a))

/-- `static_seed_mark_result` -/
def markResult (a : PeerAddr) (connected : Bool) (now : ℤ) : SeedTable m :=
  match t.entry a with
  | none => t
  | some i => Function.update t i ((t i).marked connected now)

/-- The copy that `connect_loop` makes. -/
def copy : List StaticSeed := ((List.finRange m).map t).filter (·.inUse)

end SeedTable

/-! ## The connector -/

/-- How the connector was built. -/
structure ConnectorBuild where
  /-- `CONFIG_MQTT_P2P_STATIC_SEEDS_ONLY` -/
  staticSeedsOnly : Bool
  /-- `P2P_ROUTER_COUNT` -/
  routerCount : ℕ

variable (cfg) in
/-- `max_degree` in `p2p_election_peer_budget` -/
def peerMaxDegree (build : ConnectorBuild) (activeNodes : ℕ) : ℕ :=
  let maxDegree := min (activeNodes - 1) cfg.peerMax
  if build.staticSeedsOnly then maxDegree
  else if 0 < build.routerCount ∧ build.routerCount < maxDegree then build.routerCount
  else maxDegree

variable (cfg) in
/-- `p2p_election_peer_budget` -/
def peerBudget (build : ConnectorBuild) (stats : P2pRouterStats) (publishRate activeNodes : ℕ) :
    ℕ :=
  if activeNodes ≤ 1 then 1
  else
    let maxDegree := peerMaxDegree cfg build activeNodes
    if build.staticSeedsOnly then maxDegree
    else
      let publishPressure : ℤ := min publishRate 4000
      let remotePressure : ℤ := stats.remoteSubs * 6 + stats.exactRoutes * 2 +
        stats.wildcardRoutes * 3 + stats.remoteNodes * 8
      if activeNodes ≤ 5 ∧ (0 < publishPressure ∨ 0 < remotePressure ∨ 0 < stats.remoteNodes) then
        maxDegree
      else
        bestCandidate (fun candidate ↦
          let span : ℤ := (activeNodes + candidate - 1) / candidate
          let coverage := remotePressure * candidate / activeNodes
          let diversity : ℤ := if 1 < candidate then Nat.log 2 candidate * 12 else 0
          let cost := candidate * 18 + span * span * 2 + activeNodes * 3
          publishPressure / 10 + coverage + diversity - cost +
            if 0 < stats.remoteNodes then 10 else 0) maxDegree

/-- For whom `connect_to_addr` is called. -/
inductive DialCaller where
  | candidate (rest : List P2pPeerScore)
  /-- a seed of the copy, with the `now` of the round -/
  | seed (now : ℤ) (seed : StaticSeed) (rest : List StaticSeed)

/-- Where the thread is in `connect_loop`. -/
inductive ConnectorPc where
  | sleeping
  | candidates (rest : List P2pPeerScore)
  /-- before the seeds are copied -/
  | copying
  | seeds (now : ℤ) (rest : List StaticSeed)
  /-- at the start of `connect_to_addr` -/
  | dial (a : PeerAddr) (caller : DialCaller)
  /-- in `plat_connect` -/
  | connecting (a : PeerAddr) (caller : DialCaller)
  /-- before `static_seed_mark_result`, with the result of `connect_to_addr` if it was called -/
  | mark (now : ℤ) (seed : StaticSeed) (rest : List StaticSeed) (result : Option Bool)

/-- The connections, the seeds and the local variables of `connect_loop`. -/
structure ConnectorState (cfg : Config) (κ : Type) (m : ℕ) where
  peers : PeerState cfg κ
  /-- `c->addr` and `c->p2p_port` -/
  addrs : Fin cfg.peerMax → PeerAddr
  seeds : SeedTable m
  /-- `plat_uptime_ms()` -/
  clock : ℤ
  pc : ConnectorPc
  budget : ℤ
  connected : ℤ

inductive ConnectorEvent (κ : Type) where
  | tick (ms : ℕ)
  | clearSeeds
  | addSeed (a : PeerAddr)
  /-- a step of a thread of a connection -/
  | peer (e : PeerStep κ)
  /-- `accept_loop` takes a connection from this host -/
  | accept (k : κ) (addr : UInt32)
  /-- a new round, with what `p2p_election_snapshot` and `p2p_election_peer_budget` read -/
  | round (snapshot : List P2pPeerScore) (stats : P2pRouterStats) (publishRate : ℕ)
  /-- another step of the connector; `plat_connect` fails or opens this connection -/
  | connector (k : Option κ)

namespace ConnectorState

variable (s : ConnectorState cfg κ m)

def start (cfg : Config) (κ : Type) (m : ℕ) (selfId : NodeId) (clock : ℤ) :
    ConnectorState cfg κ m :=
  ⟨.start cfg κ selfId, fun _ ↦ (0, 0), fun _ ↦ .zeroed, clock, .sleeping, 0, 0⟩

/-- `addr_conn_exists` -/
def addrConnExists (a : PeerAddr) : Bool :=
  (List.finRange cfg.peerMax).any fun i ↦ (s.peers.conns i).inUse && s.addrs i = a

/-- `connected_peer_count` -/
def connectedPeerCount : ℕ :=
  (List.finRange cfg.peerMax).countP fun i ↦ (s.peers.conns i).connected

/-- `connect_to_addr` returns. -/
def returned (caller : DialCaller) (ok : Bool) : ConnectorState cfg κ m :=
  match caller with
  | .candidate rest => { s with
      connected := s.connected + ok.toNat
      pc := .candidates rest }
  | .seed now seed rest => { s with pc := .mark now seed rest (some ok) }

variable [DecidableEq κ]

/-- `alloc_conn` and `spawn_peer`; none if there is no slot. -/
def allocConn (k : κ) (a : PeerAddr) (outbound : Bool) : Option (ConnectorState cfg κ m) :=
  s.peers.freeSlot.bind fun i ↦ (peerStep s.peers (.alloc k outbound)).map fun peers ↦ { s with
    peers := peers
    addrs := Function.update s.addrs i a }

/-- A step of `connect_loop` within a round. -/
def connectorStep (build : ConnectorBuild) (k : Option κ) : Option (ConnectorState cfg κ m) :=
  match s.pc with
  | .sleeping => none
  | .candidates [] => some { s with pc := .copying }
  | .candidates (p :: ps) =>
      if s.connected < s.budget then
        -- the tests of `connect_to_peer`
        if p.nodeId = s.peers.selfId ∨ p.role ≠ P2pRole.router.toByte ∨
            s.peers.LinkedTo p.nodeId none then
          some { s with pc := .candidates ps }
        else some { s with pc := .dial (p.addr, p.p2pPort) (.candidate ps) }
      else some { s with pc := .copying }
  | .copying => some { s with pc := .seeds s.clock s.seeds.copy }
  | .seeds _ [] => some { s with pc := .sleeping }
  | .seeds now (seed :: rest) =>
      if s.addrConnExists seed.peerAddr then some { s with pc := .mark now seed rest none }
      else if now < seed.nextAttemptMs then some { s with pc := .seeds now rest }
      else some { s with pc := .dial seed.peerAddr (.seed now seed rest) }
  | .dial a caller =>
      if s.addrConnExists a then some (s.returned caller false)
      else some { s with pc := .connecting a caller }
  | .connecting a caller =>
      match k with
      | none => some (s.returned caller false)
      | some k =>
          if (s.peers.threads k).isSome then none
          else
            match s.allocConn k a true with
            | none => some (s.returned caller false)
            | some s' => some (s'.returned caller true)
  | .mark now seed rest result =>
      let connected := s.connected + (result.getD false).toNat
      let done := result.isSome && !build.staticSeedsOnly &&
        decide (0 < s.budget ∧ s.budget ≤ connected)
      some { s with
        seeds := s.seeds.markResult seed.peerAddr (result.getD true) s.clock
        connected := connected
        pc := if done then .sleeping else .seeds now rest }

/-- The entries that become candidates, in the order in which they are tried. -/
def roundCandidates (snapshot : List P2pPeerScore) : List P2pPeerScore :=
  connectOrder s.peers.selfId (snapshot.filter fun p ↦
    p.role = P2pRole.router.toByte ∧ p.nodeId ≠ s.peers.selfId ∧ ¬ s.peers.LinkedTo p.nodeId none)

def step (build : ConnectorBuild) :
    ConnectorEvent κ → Option (ConnectorState cfg κ m)
  | .tick ms => some { s with clock := s.clock + ms }
  | .clearSeeds => some { s with seeds := .clear }
  | .addSeed a => some { s with seeds := (s.seeds.add a).2 }
  | .peer (.alloc _ _) => none
  | .peer e => (peerStep s.peers e).map fun peers ↦ { s with
      peers := peers
      -- a slot that is not in use has been cleared by `memset`
      addrs := fun i ↦ if (peers.conns i).inUse then s.addrs i else (0, 0) }
  | .accept k addr => s.allocConn k (addr, 0) false
  | .round snapshot stats publishRate =>
      match s.pc with
      | .sleeping =>
          let budget : ℤ := peerBudget cfg build stats publishRate snapshot.length
          let connected : ℤ := if 0 < budget then s.connectedPeerCount else 0
          some { s with
            budget := budget
            connected := connected
            pc :=
              if !build.staticSeedsOnly && decide (connected < budget) then
                .candidates (s.roundCandidates snapshot)
              else .copying }
      | _ => none
  | .connector k => s.connectorStep build k

end ConnectorState

/-- What is written down beside the state. -/
structure ConnectorLog where
  /-- the results marked for an address since the seeds were cleared, the last one first -/
  attempts : PeerAddr → List Attempt
  /-- the peers counted at the start of the round -/
  counted : ℤ
  /-- the connections opened in the round -/
  opened : ℕ

namespace ConnectorLog

def none : ConnectorLog := ⟨fun _ ↦ [], 0, 0⟩

/-- What `static_seed_mark_result` is called for. -/
def attempt (now clock : ℤ) (result : Option Bool) : Attempt :=
  result.elim (.unneeded clock) (.tried now clock)

/-- The history of one address is now this. -/
def record (n : ConnectorLog) (a : PeerAddr) (l : List Attempt) : ConnectorLog :=
  { n with attempts := Function.update n.attempts a l }

@[simp] theorem record_self (n : ConnectorLog) (a : PeerAddr) (l : List Attempt) :
    (n.record a l).attempts a = l :=
  Function.update_self _ _ _

theorem record_of_ne {n : ConnectorLog} {a b : PeerAddr} (l : List Attempt) (h : b ≠ a) :
    (n.record a l).attempts b = n.attempts b :=
  Function.update_of_ne h _ _

variable [DecidableEq κ]

def note (s : ConnectorState cfg κ m) (e : ConnectorEvent κ) (n : ConnectorLog) : ConnectorLog :=
  match e, s.pc with
  | .clearSeeds, _ => { n with attempts := fun _ ↦ [] }
  | .round _ _ _, _ => { n with
      counted := s.connectedPeerCount
      opened := 0 }
  | .connector _, .mark now seed _ result =>
      if (s.seeds.entry seed.peerAddr).isSome then
        n.record seed.peerAddr (attempt now s.clock result :: n.attempts seed.peerAddr)
      else n
  | .connector (some k), .connecting a _ => { n with
      opened := n.opened + (s.allocConn k a true).isSome.toNat }
  | _, _ => n

end ConnectorLog

variable (κ) in
def connectorSystem [DecidableEq κ] (cfg : Config) (m : ℕ) (build : ConnectorBuild) :
    System (ConnectorState cfg κ m) (ConnectorEvent κ) ConnectorLog where
  step s e := s.step build e
  note := ConnectorLog.note

/-! ## What a step can be -/

namespace ConnectorState

variable [DecidableEq κ] {build : ConnectorBuild} {s s' : ConnectorState cfg κ m}
  {e : ConnectorEvent κ}

/-- The steps of the connector within a round. -/
inductive RoundStep (build : ConnectorBuild) (s : ConnectorState cfg κ m) (k : Option κ) :
    ConnectorState cfg κ m → Prop where
  | leaveCandidates (rest : List P2pPeerScore) (hpc : s.pc = .candidates rest) :
      RoundStep build s k { s with pc := .copying }
  | skipCandidate (p : P2pPeerScore) (ps : List P2pPeerScore) (hpc : s.pc = .candidates (p :: ps)) :
      RoundStep build s k { s with pc := .candidates ps }
  | tryCandidate (p : P2pPeerScore) (ps : List P2pPeerScore) (hpc : s.pc = .candidates (p :: ps))
      (hlt : s.connected < s.budget) :
      RoundStep build s k { s with pc := .dial (p.addr, p.p2pPort) (.candidate ps) }
  | copy (hpc : s.pc = .copying) :
      RoundStep build s k { s with pc := .seeds s.clock s.seeds.copy }
  | leaveSeeds (now : ℤ) (hpc : s.pc = .seeds now []) :
      RoundStep build s k { s with pc := .sleeping }
  | seedLinked (now : ℤ) (seed : StaticSeed) (rest : List StaticSeed)
      (hpc : s.pc = .seeds now (seed :: rest)) :
      RoundStep build s k { s with pc := .mark now seed rest none }
  | seedEarly (now : ℤ) (seed : StaticSeed) (rest : List StaticSeed)
      (hpc : s.pc = .seeds now (seed :: rest)) :
      RoundStep build s k { s with pc := .seeds now rest }
  | seedDue (now : ℤ) (seed : StaticSeed) (rest : List StaticSeed)
      (hpc : s.pc = .seeds now (seed :: rest)) (hdue : seed.nextAttemptMs ≤ now) :
      RoundStep build s k { s with pc := .dial seed.peerAddr (.seed now seed rest) }
  | linked (a : PeerAddr) (caller : DialCaller) (hpc : s.pc = .dial a caller) :
      RoundStep build s k (s.returned caller false)
  | dial (a : PeerAddr) (caller : DialCaller) (hpc : s.pc = .dial a caller)
      (hfree : s.addrConnExists a = false) :
      RoundStep build s k { s with pc := .connecting a caller }
  | failed (a : PeerAddr) (caller : DialCaller) (hpc : s.pc = .connecting a caller)
      (hnone : ∀ k' ∈ k, s.allocConn k' a true = none) :
      RoundStep build s k (s.returned caller false)
  | opened (a : PeerAddr) (caller : DialCaller) (k' : κ) (s' : ConnectorState cfg κ m)
      (hpc : s.pc = .connecting a caller) (hk : k = some k')
      (halloc : s.allocConn k' a true = some s') :
      RoundStep build s k (s'.returned caller true)
  | mark (now : ℤ) (seed : StaticSeed) (rest : List StaticSeed) (result : Option Bool)
      (connected : ℤ) (done : Bool) (hpc : s.pc = .mark now seed rest result)
      (hconnected : connected = s.connected + (result.getD false).toNat)
      (hdone : done = (result.isSome && !build.staticSeedsOnly &&
        decide (0 < s.budget ∧ s.budget ≤ connected))) :
      RoundStep build s k { s with
        seeds := s.seeds.markResult seed.peerAddr (result.getD true) s.clock
        connected := connected
        pc := if done then .sleeping else .seeds now rest }

theorem connectorStep_cases {k : Option κ} (h : s.connectorStep build k = some s') :
    RoundStep build s k s' := by
  unfold connectorStep at h
  split at h
  · cases h
  · cases h
    exact .leaveCandidates _ ‹_›
  · split_ifs at h <;> cases h
    · exact .skipCandidate _ _ ‹_›
    · exact .tryCandidate _ _ ‹_› ‹_›
    · exact .leaveCandidates _ ‹_›
  · cases h
    exact .copy ‹_›
  · cases h
    exact .leaveSeeds _ ‹_›
  · split_ifs at h with hlinked hearly <;> cases h
    · exact .seedLinked _ _ _ ‹_›
    · exact .seedEarly _ _ _ ‹_›
    · exact .seedDue _ _ _ ‹_› (not_lt.mp hearly)
  · split_ifs at h with hlinked <;> cases h
    · exact .linked _ _ ‹_›
    · exact .dial _ _ ‹_› (Bool.eq_false_iff.mpr hlinked)
  · split at h
    · cases h
      exact .failed _ _ ‹_› (by simp)
    · split_ifs at h
      split at h <;> cases h
      · exact .failed _ _ ‹_› (by simpa)
      · exact .opened _ _ _ _ ‹_› rfl ‹_›
  · cases h
    exact .mark _ _ _ _ _ _ ‹_› rfl rfl

end ConnectorState

/-! ## One table -/

theorem StaticSeed.marked_delay {seed : StaticSeed} {ok : Bool} {now : ℤ}
    (h : seed.retryDelayMs.toNat ≤ P2P_CONNECT_BACKOFF_MAX_MS) :
    (seed.marked ok now).retryDelayMs.toNat =
      next P2P_CONNECT_MS P2P_CONNECT_BACKOFF_MAX_MS seed.retryDelayMs.toNat ok := by
  have hconnect : (UInt32.ofNat P2P_CONNECT_MS).toNat = P2P_CONNECT_MS := by decide
  have hmax : (UInt32.ofNat P2P_CONNECT_BACKOFF_MAX_MS).toNat = P2P_CONNECT_BACKOFF_MAX_MS := by
    decide
  have hdouble : (seed.retryDelayMs * 2).toNat = 2 * seed.retryDelayMs.toNat := by
    have htwo : (2 : UInt32).toNat = 2 := by decide
    rw [UInt32.toNat_mul, htwo, Nat.mod_eq_of_lt, mul_comm]
    rw [P2P_CONNECT_BACKOFF_MAX_MS] at h
    omega
  simp only [marked, next, UInt32.lt_iff_toNat_lt, hconnect, hmax, hdouble]
  split_ifs with hok hfirst hcap
  · exact hconnect
  · exact hconnect
  · rw [hmax, min_eq_right hcap.le]
  · rw [hdouble, min_eq_left (not_lt.mp hcap)]

namespace SeedTable

variable {t : SeedTable m} {a : PeerAddr} {i : Fin m}

theorem entry_eq_some (h : t.entry a = some i) : (t i).inUse = true ∧ (t i).peerAddr = a := by
  simpa using List.find?_some h

theorem entry_isSome_iff :
    (t.entry a).isSome ↔ ∃ i, (t i).inUse = true ∧ (t i).peerAddr = a := by
  rw [entry, List.find?_isSome]
  simp

theorem mem_copy {seed : StaticSeed} :
    seed ∈ t.copy ↔ seed.inUse = true ∧ ∃ i, t i = seed := by
  simp [copy, and_comm]

end SeedTable

namespace ConnectorLog

/-- When a seed with this address may be dialled by its history. -/
def dueAt (n : ConnectorLog) (a : PeerAddr) : Option ℤ :=
  due P2P_CONNECT_MS P2P_CONNECT_BACKOFF_MAX_MS (seedRetryJitterMs a).toNat (n.attempts a)

end ConnectorLog

/-- The table goes with the history of its addresses, which all had to wait. -/
structure SeedsPaced (t : SeedTable m) (n : ConnectorLog) : Prop where
  valid : ∀ i, (t i).inUse = true → (t i).addr ≠ INADDR_NONE ∧ (t i).addr ≠ 0 ∧ (t i).p2pPort ≠ 0
  apart : ∀ i j, (t i).inUse = true → (t j).inUse = true → (t i).peerAddr = (t j).peerAddr → i = j
  cleared : ∀ i, (t i).inUse = false → t i = .zeroed
  delay : ∀ i, (t i).inUse = true → (t i).retryDelayMs.toNat =
    Backoff.delay P2P_CONNECT_MS P2P_CONNECT_BACKOFF_MAX_MS
      ((n.attempts (t i).peerAddr).map Attempt.ok)
  next : ∀ i, (t i).inUse = true → ∀ d ∈ n.dueAt (t i).peerAddr, (t i).nextAttemptMs = d
  known : ∀ a, t.entry a = none → n.attempts a = []
  paced : ∀ a, Paced P2P_CONNECT_MS P2P_CONNECT_BACKOFF_MAX_MS (seedRetryJitterMs a).toNat
    (n.attempts a)

namespace SeedsPaced

variable {t : SeedTable m} {n : ConnectorLog}

theorem clear (counted : ℤ) (opened : ℕ) :
    SeedsPaced (.clear : SeedTable m) ⟨fun _ ↦ [], counted, opened⟩ where
  valid _ h := by cases h
  apart _ _ h := by cases h
  cleared _ _ := rfl
  delay _ h := by cases h
  next _ h := by cases h
  known _ _ := rfl
  paced _ := trivial

theorem congr {n' : ConnectorLog} (h : SeedsPaced t n) (hattempts : n'.attempts = n.attempts) :
    SeedsPaced t n' := by
  obtain ⟨attempts, counted, opened⟩ := n
  obtain ⟨attempts', counted', opened'⟩ := n'
  cases hattempts
  exact ⟨h.valid, h.apart, h.cleared, h.delay, h.next, h.known, h.paced⟩

theorem attempts_eq_nil (h : SeedsPaced t n) {a : PeerAddr} (hnone : ¬ (t.entry a).isSome) :
    n.attempts a = [] :=
  h.known a (Option.not_isSome_iff_eq_none.mp hnone)

/-- An entry is written for an address that no other one has, with a new history. -/
theorem put (h : SeedsPaced t n) {i : Fin m} (seed : StaticSeed) {l : List Attempt}
    (huse : seed.inUse = true)
    (hvalid : seed.addr ≠ INADDR_NONE ∧ seed.addr ≠ 0 ∧ seed.p2pPort ≠ 0)
    (hother : ∀ j ≠ i, (t j).inUse = true → (t j).peerAddr ≠ seed.peerAddr)
    (hkeep : (t i).inUse = true → (t i).peerAddr = seed.peerAddr)
    (hdelay : seed.retryDelayMs.toNat =
      Backoff.delay P2P_CONNECT_MS P2P_CONNECT_BACKOFF_MAX_MS (l.map Attempt.ok))
    (hnext : ∀ d ∈ due P2P_CONNECT_MS P2P_CONNECT_BACKOFF_MAX_MS
      (seedRetryJitterMs seed.peerAddr).toNat l, seed.nextAttemptMs = d)
    (hpaced : Paced P2P_CONNECT_MS P2P_CONNECT_BACKOFF_MAX_MS
      (seedRetryJitterMs seed.peerAddr).toNat l) :
    SeedsPaced (Function.update t i seed) (n.record seed.peerAddr l) := by
  -- every slot is the one that is written or has another address
  have hcases : ∀ j, j = i ∧ Function.update t i seed j = seed ∨
      j ≠ i ∧ Function.update t i seed j = t j := by
    intro j
    by_cases hji : j = i
    · exact .inl ⟨hji, by rw [hji, Function.update_self]⟩
    · exact .inr ⟨hji, Function.update_of_ne hji _ _⟩
  refine ⟨fun j hj ↦ ?_, fun j j' hj hj' haddr ↦ ?_, fun j hj ↦ ?_, fun j hj ↦ ?_,
    fun j hj d hd ↦ ?_, fun b hb ↦ ?_, fun b ↦ ?_⟩
  · rcases hcases j with ⟨-, heq⟩ | ⟨-, heq⟩ <;> rw [heq] at hj ⊢
    · exact hvalid
    · exact h.valid j hj
  · rcases hcases j with ⟨rfl, heq⟩ | ⟨hji, heq⟩ <;>
      rcases hcases j' with ⟨hji', heq'⟩ | ⟨hji', heq'⟩ <;>
        rw [heq] at hj haddr <;> rw [heq'] at hj' haddr
    · exact hji'.symm
    · exact absurd haddr.symm (hother j' hji' hj')
    · exact absurd haddr (hother j hji hj)
    · exact h.apart j j' hj hj' haddr
  · rcases hcases j with ⟨-, heq⟩ | ⟨-, heq⟩ <;> rw [heq] at hj ⊢
    · rw [huse] at hj
      cases hj
    · exact h.cleared j hj
  · rcases hcases j with ⟨-, heq⟩ | ⟨hji, heq⟩ <;> rw [heq] at hj ⊢
    · rw [ConnectorLog.record_self]
      exact hdelay
    · rw [ConnectorLog.record_of_ne l (hother j hji hj)]
      exact h.delay j hj
  · rcases hcases j with ⟨-, heq⟩ | ⟨hji, heq⟩ <;> rw [heq] at hj hd ⊢
    · rw [ConnectorLog.dueAt, ConnectorLog.record_self] at hd
      exact hnext d hd
    · rw [ConnectorLog.dueAt, ConnectorLog.record_of_ne l (hother j hji hj)] at hd
      exact h.next j hj d hd
  · rw [← Option.not_isSome_iff_eq_none, SeedTable.entry_isSome_iff] at hb
    have hne : b ≠ seed.peerAddr := by
      rintro rfl
      exact hb ⟨i, by rwa [Function.update_self], by rw [Function.update_self]⟩
    rw [ConnectorLog.record_of_ne l hne]
    apply h.attempts_eq_nil
    rw [SeedTable.entry_isSome_iff]
    rintro ⟨j, hj, hjb⟩
    rcases hcases j with ⟨rfl, -⟩ | ⟨-, heq⟩
    · exact hne (hjb.symm.trans (hkeep hj))
    · exact hb ⟨j, by rwa [heq], by rwa [heq]⟩
  · by_cases hb : b = seed.peerAddr
    · rw [hb, ConnectorLog.record_self]
      exact hpaced
    · rw [ConnectorLog.record_of_ne l hb]
      exact h.paced b

theorem add (h : SeedsPaced t n) (a : PeerAddr) : SeedsPaced (t.add a).2 n := by
  unfold SeedTable.add
  split_ifs with hinvalid hknown
  · exact h
  · exact h
  split
  · exact h
  rename_i i hfind
  have hfree : (t i).inUse = false := by simpa using List.find?_some hfind
  have hnew := h.attempts_eq_nil hknown
  have hput : SeedsPaced (Function.update t i ((t i).added a)) (n.record a []) := by
    apply h.put ((t i).added a) rfl
    · exact ⟨fun h ↦ hinvalid (.inl h), fun h ↦ hinvalid (.inr (.inl h)),
        fun h ↦ hinvalid (.inr (.inr h))⟩
    · intro j _ hj hja
      exact hknown (SeedTable.entry_isSome_iff.mpr ⟨j, hj, hja⟩)
    · intro huse
      rw [hfree] at huse
      cases huse
    · rw [h.cleared i hfree]
      rfl
    · simp [due]
    · trivial
  rwa [← hnew, ConnectorLog.record, Function.update_eq_self] at hput

/-- A result is marked for an address. -/
theorem mark (h : SeedsPaced t n) {a : PeerAddr} {now clock : ℤ} {result : Option Bool}
    (hnow : now ≤ clock) (hdue : result.isSome → ∀ d ∈ n.dueAt a, d ≤ now)
    (hentry : (t.entry a).isSome) :
    SeedsPaced (t.markResult a (result.getD true) clock)
      (n.record a (ConnectorLog.attempt now clock result :: n.attempts a)) := by
  obtain ⟨i, hi⟩ := Option.isSome_iff_exists.mp hentry
  obtain ⟨huse, rfl⟩ := SeedTable.entry_eq_some hi
  have hok : (ConnectorLog.attempt now clock result).ok = result.getD true := by
    cases result <;> rfl
  have hended : (ConnectorLog.attempt now clock result).ended = clock := by
    cases result <;> rfl
  have hle : (t i).retryDelayMs.toNat ≤ P2P_CONNECT_BACKOFF_MAX_MS := by
    rw [h.delay i huse]
    exact delay_le (by decide) _
  have hdelay : ((t i).marked (result.getD true) clock).retryDelayMs.toNat =
      Backoff.delay P2P_CONNECT_MS P2P_CONNECT_BACKOFF_MAX_MS
        ((ConnectorLog.attempt now clock result :: n.attempts (t i).peerAddr).map Attempt.ok) := by
    rw [StaticSeed.marked_delay hle, h.delay i huse, List.map_cons, hok]
    rfl
  rw [SeedTable.markResult, hi]
  apply h.put ((t i).marked (result.getD true) clock) huse (h.valid i huse)
  · intro j hji hj haddr
    exact hji (h.apart j i hj huse haddr)
  · exact fun _ ↦ rfl
  · exact hdelay
  · intro d hd
    obtain rfl := Option.some.inj hd
    rw [← hdelay, hended]
    rfl
  · cases result with
    | none => exact h.paced _
    | some ok => exact ⟨hnow, hdue rfl, h.paced _⟩

end SeedsPaced

/-! ## The copy of a round -/

/-- The entries of the copy that are left go with the history. -/
structure CopyPaced (n : ConnectorLog) (clock now : ℤ) (rest : List StaticSeed) : Prop where
  before : now ≤ clock
  nodup : (rest.map StaticSeed.peerAddr).Nodup
  next : ∀ c ∈ rest, ∀ d ∈ n.dueAt c.peerAddr, c.nextAttemptMs = d

namespace CopyPaced

variable {n n' : ConnectorLog} {clock clock' now : ℤ} {seed : StaticSeed} {rest : List StaticSeed}

theorem tail (h : CopyPaced n clock now (seed :: rest)) : CopyPaced n clock now rest where
  before := h.before
  nodup := (List.nodup_cons.mp h.nodup).2
  next c hc := h.next c (List.mem_cons_of_mem _ hc)

theorem mono (h : CopyPaced n clock now rest) (hle : clock ≤ clock')
    (hdue : ∀ c ∈ rest, ∀ d ∈ n'.dueAt c.peerAddr, d ∈ n.dueAt c.peerAddr) :
    CopyPaced n' clock' now rest where
  before := h.before.trans hle
  nodup := h.nodup
  next c hc d hd := h.next c hc d (hdue c hc d hd)

end CopyPaced

theorem SeedsPaced.copyPaced {t : SeedTable m} {n : ConnectorLog} (h : SeedsPaced t n)
    (clock : ℤ) : CopyPaced n clock clock t.copy where
  before := le_rfl
  nodup := by
    rw [SeedTable.copy, List.filter_map, List.map_map]
    refine List.Nodup.map_on (fun i hi j hj hij ↦ ?_) ((List.nodup_finRange _).filter _)
    exact h.apart i j (List.mem_filter.mp hi).2 (List.mem_filter.mp hj).2 hij
  next c hc d hd := by
    obtain ⟨huse, i, rfl⟩ := SeedTable.mem_copy.mp hc
    exact h.next i huse d hd

/-- What the connector has read goes with the history. -/
def ConnectorPc.Paced (n : ConnectorLog) (clock : ℤ) : ConnectorPc → Prop
  | .seeds now rest => CopyPaced n clock now rest
  | .dial a (.seed now seed rest) | .connecting a (.seed now seed rest) =>
      a = seed.peerAddr ∧ CopyPaced n clock now (seed :: rest) ∧ seed.nextAttemptMs ≤ now
  | .mark now seed rest result =>
      CopyPaced n clock now (seed :: rest) ∧ (result.isSome → seed.nextAttemptMs ≤ now)
  | _ => True

theorem ConnectorPc.Paced.mono {n n' : ConnectorLog} {clock clock' : ℤ} {pc : ConnectorPc}
    (h : pc.Paced n clock) (hle : clock ≤ clock')
    (hdue : ∀ a, ∀ d ∈ n'.dueAt a, d ∈ n.dueAt a) : pc.Paced n' clock' := by
  have hcopy : ∀ {now rest}, CopyPaced n clock now rest → CopyPaced n' clock' now rest :=
    fun h ↦ h.mono hle fun c _ ↦ hdue c.peerAddr
  cases pc with
  | seeds now rest => exact hcopy h
  | dial a caller | connecting a caller =>
      cases caller with
      | candidate rest => trivial
      | seed now seed rest => exact ⟨h.1, hcopy h.2.1, h.2.2⟩
  | mark now seed rest result => exact ⟨hcopy h.1, h.2⟩
  | _ => trivial

structure ConnectorState.Paced (s : ConnectorState cfg κ m) (n : ConnectorLog) : Prop where
  table : SeedsPaced s.seeds n
  pc : s.pc.Paced n s.clock

namespace ConnectorState

variable [DecidableEq κ] {build : ConnectorBuild} {s s' : ConnectorState cfg κ m}
  {e : ConnectorEvent κ} {n : ConnectorLog}

theorem allocConn_eq {k : κ} {a : PeerAddr} {outbound : Bool}
    (h : s.allocConn k a outbound = some s') : ∃ i peers, s.peers.freeSlot = some i ∧
      peerStep s.peers (.alloc k outbound) = some peers ∧
        s' = { s with
          peers := peers
          addrs := Function.update s.addrs i a } := by
  obtain ⟨i, hi, h⟩ := Option.bind_eq_some_iff.mp h
  obtain ⟨peers, hpeers, rfl⟩ := Option.map_eq_some_iff.mp h
  exact ⟨i, peers, hi, hpeers, rfl⟩

omit [DecidableEq κ] in
/-- `connect_to_addr` returns to the loop that called it. -/
theorem returned_paced (hs : s.Paced n) {a : PeerAddr} {caller : DialCaller} {ok : Bool}
    (hpc : s.pc = .dial a caller ∨ s.pc = .connecting a caller) :
    (s.returned caller ok).Paced n := by
  cases caller with
  | candidate rest => exact ⟨hs.table, trivial⟩
  | seed now seed rest =>
      have hold : a = seed.peerAddr ∧ CopyPaced n s.clock now (seed :: rest) ∧
          seed.nextAttemptMs ≤ now := by
        rcases hpc with hpc | hpc <;> have hold := hs.pc <;> rw [hpc] at hold <;> exact hold
      exact ⟨hs.table, hold.2.1, fun _ ↦ hold.2.2⟩

/-- A result is marked, and the loop goes on or ends. -/
theorem mark_paced (hs : s.Paced n) {now : ℤ} {seed : StaticSeed} {rest : List StaticSeed}
    {result : Option Bool} (hpc : s.pc = .mark now seed rest result) (connected : ℤ) (done : Bool)
    (k : Option κ) :
    { s with
      seeds := s.seeds.markResult seed.peerAddr (result.getD true) s.clock
      connected := connected
      pc := if done then .sleeping else .seeds now rest }.Paced
        (ConnectorLog.note s (.connector k) n) := by
  have hold := hs.pc
  rw [hpc] at hold
  obtain ⟨hcopy, hearly⟩ := hold
  by_cases hentry : (s.seeds.entry seed.peerAddr).isSome
  · have hnote : ConnectorLog.note s (.connector k) n = n.record seed.peerAddr
        (ConnectorLog.attempt now s.clock result :: n.attempts seed.peerAddr) := by
      cases k <;> simp [ConnectorLog.note, hpc, hentry]
    rw [hnote]
    refine ⟨hs.table.mark hcopy.before (fun hsome d hd ↦ ?_) hentry, ?_⟩
    · rw [← hcopy.next seed List.mem_cons_self d hd]
      exact hearly hsome
    · cases done with
      | true => trivial
      | false =>
          apply hcopy.tail.mono le_rfl
          intro c hc d hd
          have hne : c.peerAddr ≠ seed.peerAddr := by
            intro heq
            exact (List.nodup_cons.mp hcopy.nodup).1 (heq ▸ List.mem_map_of_mem hc)
          rwa [ConnectorLog.dueAt, ConnectorLog.record_of_ne _ hne] at hd
  · have hnote : ConnectorLog.note s (.connector k) n = n := by
      cases k <;> simp [ConnectorLog.note, hpc, hentry]
    have htable : s.seeds.markResult seed.peerAddr (result.getD true) s.clock = s.seeds := by
      rw [SeedTable.markResult, Option.not_isSome_iff_eq_none.mp hentry]
    rw [hnote, htable]
    refine ⟨hs.table, ?_⟩
    cases done with
    | true => trivial
    | false => exact hcopy.tail

theorem roundStep_paced {k : Option κ} (hs : s.Paced n) (h : RoundStep build s k s') :
    s'.Paced (ConnectorLog.note s (.connector k) n) := by
  have hold := hs.pc
  -- only a mark writes something down about an address
  have hsame : ∀ {s'' : ConnectorState cfg κ m}, (∀ now seed rest result,
      s.pc ≠ .mark now seed rest result) → s''.Paced n →
        s''.Paced (ConnectorLog.note s (.connector k) n) := by
    intro s'' hne hs''
    have hattempts : (ConnectorLog.note s (.connector k) n).attempts = n.attempts := by
      cases hpc : s.pc with
      | mark now seed rest result => exact absurd hpc (hne now seed rest result)
      | _ => cases k <;> simp [ConnectorLog.note, hpc]
    refine ⟨hs''.table.congr hattempts, hs''.pc.mono le_rfl fun a d hd ↦ ?_⟩
    rwa [ConnectorLog.dueAt, hattempts] at hd
  cases h with
  | leaveCandidates rest hpc => exact hsame (by simp [hpc]) ⟨hs.table, trivial⟩
  | skipCandidate p ps hpc => exact hsame (by simp [hpc]) ⟨hs.table, trivial⟩
  | tryCandidate p ps hpc hlt => exact hsame (by simp [hpc]) ⟨hs.table, trivial⟩
  | copy hpc => exact hsame (by simp [hpc]) ⟨hs.table, hs.table.copyPaced s.clock⟩
  | leaveSeeds now hpc => exact hsame (by simp [hpc]) ⟨hs.table, trivial⟩
  | seedLinked now seed rest hpc =>
      rw [hpc] at hold
      exact hsame (by simp [hpc]) ⟨hs.table, hold, by simp⟩
  | seedEarly now seed rest hpc =>
      rw [hpc] at hold
      exact hsame (by simp [hpc]) ⟨hs.table, hold.tail⟩
  | seedDue now seed rest hpc hdue =>
      rw [hpc] at hold
      exact hsame (by simp [hpc]) ⟨hs.table, rfl, hold, hdue⟩
  | linked a caller hpc => exact hsame (by simp [hpc]) (returned_paced hs (.inl hpc))
  | dial a caller hpc hfree =>
      rw [hpc] at hold
      exact hsame (by simp [hpc]) ⟨hs.table, by cases caller <;> exact hold⟩
  | failed a caller hpc hnone => exact hsame (by simp [hpc]) (returned_paced hs (.inr hpc))
  | opened a caller k' s' hpc hk halloc =>
      obtain ⟨i, peers, -, -, rfl⟩ := allocConn_eq halloc
      have hopened : ConnectorState.Paced { s with
          peers := peers
          addrs := Function.update s.addrs i a } n := ⟨hs.table, hs.pc⟩
      exact hsame (by simp [hpc]) (returned_paced hopened (.inr hpc))
  | mark now seed rest result connected done hpc hconnected hdone =>
      exact mark_paced hs hpc connected done k

theorem step_paced (hs : s.Paced n) (h : s.step build e = some s') :
    s'.Paced (ConnectorLog.note s e n) := by
  cases e with
  | tick ms =>
      cases h
      exact ⟨hs.table, hs.pc.mono (by simp) fun _ _ hd ↦ hd⟩
  | clearSeeds =>
      cases h
      exact ⟨.clear _ _, hs.pc.mono le_rfl fun a d hd ↦ by cases hd⟩
  | addSeed a =>
      cases h
      exact ⟨hs.table.add a, hs.pc⟩
  | peer e =>
      cases e with
      | alloc k outbound => cases h
      | _ =>
          obtain ⟨peers, -, rfl⟩ := Option.map_eq_some_iff.mp h
          exact ⟨hs.table, hs.pc⟩
  | accept k addr =>
      obtain ⟨i, peers, -, -, rfl⟩ := allocConn_eq h
      exact ⟨hs.table, hs.pc⟩
  | round snapshot stats publishRate =>
      simp only [step] at h
      split at h <;> cases h
      refine ⟨hs.table.congr rfl, ?_⟩
      dsimp only
      split_ifs <;> trivial
  | connector k => exact roundStep_paced hs (connectorStep_cases h)

/-- The dials of the static seeds keep to the delays. -/
structure Waits (s : ConnectorState cfg κ m) (n : ConnectorLog) : Prop where
  table : SeedsPaced s.seeds n
  /-- a dial under way was due, by the history of its address, when the round read the clock -/
  dialling : ∀ a now seed rest, s.pc = .connecting a (.seed now seed rest) →
    a = seed.peerAddr ∧ now ≤ s.clock ∧ ∀ d ∈ n.dueAt a, d ≤ now
  /-- failures in a row take the sum of their delays -/
  span : ∀ a fails first rest, n.attempts a = fails ++ first :: rest → first.ok = false →
    (∀ x ∈ fails, x.ok = false) → ∀ last ∈ fails.head?,
      first.ended + ((∑ i ∈ Finset.range fails.length,
        (min (P2P_CONNECT_MS * 2 ^ i) P2P_CONNECT_BACKOFF_MAX_MS +
          (seedRetryJitterMs a).toNat) : ℕ) : ℤ) ≤ last.begun

theorem seeds_wait {selfId : NodeId} {clock : ℤ}
    (h : Reach (connectorSystem κ cfg m build) (fun _ _ _ ↦ True) (.start cfg κ m selfId clock)
      .none s n) : s.Waits n := by
  have hs : s.Paced n := by
    refine h.invariant (I := fun s n ↦ s.Paced n) ⟨.clear 0 0, trivial⟩ ?_
    intro s n e s' _ hs _ hstep
    exact step_paced hs hstep
  refine ⟨hs.table, fun a now seed rest hpc ↦ ?_, ?_⟩
  · have hold := hs.pc
    rw [hpc] at hold
    obtain ⟨rfl, hcopy, hearly⟩ := hold
    refine ⟨rfl, hcopy.before, fun d hd ↦ ?_⟩
    rw [← hcopy.next seed List.mem_cons_self d hd]
    exact hearly
  · intro a fails first rest hattempts hfirst hfails
    have hpaced := hs.table.paced a
    rw [hattempts] at hpaced
    exact hpaced.failures_span (by decide) hfirst hfails

/-- Three rounds with a seed that cannot be reached; the second one comes too early for it. -/
def unreachable : List (ConnectorEvent (Fin 1)) :=
  let round := .round [] ⟨0, 0, 0, 0⟩ 0 :: List.replicate 4 (.connector none)
  let rest := List.replicate 3 (.connector none)
  [.addSeed (7, 4884), .tick 100] ++ round ++ [.tick 50] ++ rest ++ [.tick 3000] ++ round ++
    [.tick 1000] ++ round ++ rest

theorem seeds_wait_unreachable :
    (Observer.run (connectorSystem (Fin 1) Config.posix 2 ⟨false, 0⟩)
      (.start Config.posix (Fin 1) 2 (fun _ ↦ 1) 0, .none) unreachable).map
        (fun r ↦ r.2.attempts (7, 4884)) = some [.tried 4150 4150 false, .tried 100 150 false] ∧
      ∀ r ∈ Observer.run (connectorSystem (Fin 1) Config.posix 2 ⟨false, 0⟩)
        (.start Config.posix (Fin 1) 2 (fun _ ↦ 1) 0, .none) unreachable, r.1.Waits r.2 := by
  refine ⟨by decide +kernel, fun r hr ↦ ?_⟩
  exact seeds_wait (Reach.start.run (fun _ _ _ _ ↦ trivial) hr)

end ConnectorState

end MqttBroker
