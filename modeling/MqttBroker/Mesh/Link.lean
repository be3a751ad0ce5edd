import MqttBroker.Client.Timeouts
import MqttBroker.Mesh.Message
import MqttBroker.Lib.Writers

/-!
# The bytes between two brokers

`send_frame` and `recv_frame` of `p2p_peer.c`.  The frames of a connection are written in
pieces by many threads; `send_locks` has an entry for each slot, and the HELLO is sent
before the slot is entered in `send_slots`, where the other threads find it.
-/

namespace MqttBroker

open TickReader

variable {τ : Type}

/-! ## Frames -/

namespace P2pType

def hello : UInt8 := 0x01
def subNotify : UInt8 := 0x02
def unsubNotify : UInt8 := 0x03
def publish : UInt8 := 0x04

end P2pType

/-- `p2p_hdr_t` with the payload. -/
structure P2pFrame where
  type : UInt8
  payload : Bytes
  deriving DecidableEq

namespace P2pFrame

/-- What `send_frame` writes: the header with the length in network order, and the payload. -/
def bytes (f : P2pFrame) : Bytes :=
  f.type :: (writeU16 (UInt16.ofNat f.payload.length) ++ f.payload)

/-- `send_frame` sends it, and `recv_frame` takes it. -/
def Fits (f : P2pFrame) : Prop := f.payload.length ≤ P2P_PUBLISH_FRAME_MAX

instance (f : P2pFrame) : Decidable f.Fits := inferInstanceAs (Decidable (_ ≤ _))

theorem length_bytes (f : P2pFrame) : f.bytes.length = 3 + f.payload.length := by
  simp [bytes, writeU16]
  omega

theorem bytes_ne_nil (f : P2pFrame) : f.bytes ≠ [] := List.cons_ne_nil _ _

end P2pFrame

/-! ## `recv_frame` -/

/-- `recv_frame` with the given `recv_all`. -/
def recvFrameWith {ω : Type} (recv : ℕ → Reader ω HeaderError Bytes) (cap : ℕ) :
    Reader ω HeaderError P2pFrame := do
  let hdr ← recv 3
  let type := hdr.headD 0
  let len := ((readU16 hdr.tail).elim 0 Prod.fst).toNat
  if cap < len then Reader.stop (.refused .tooLarge)
  else if 0 < len then do
    let payload ← recv len
    pure ⟨type, payload⟩
  else pure ⟨type, []⟩

/-- `recv_frame` as `peer_loop` calls it; `recv_all` has the body of `recv_exact`. -/
def recvFrame : Reader Wire HeaderError P2pFrame := recvFrameWith recvExact P2P_PUBLISH_FRAME_MAX

/-- `recv_frame` on single bytes. -/
def frameTicks : Reader (Ticks UInt8) HeaderError P2pFrame :=
  recvFrameWith takeExact P2P_PUBLISH_FRAME_MAX

theorem recvFrame_simulates : Simulates Wire.ticks recvFrame frameTicks := by
  unfold recvFrame frameTicks recvFrameWith
  refine (recvExact_simulates 3).bind fun hdr ↦ ?_
  dsimp only
  split_ifs
  · exact .stop Wire.ticks _
  · exact (recvExact_simulates _).bind fun payload ↦ .pure Wire.ticks _
  · exact .pure Wire.ticks _

/-- `recv_frame` reads a whole frame and nothing behind it. -/
theorem frameTicks_completes {f : P2pFrame} (hf : f.Fits) :
    Completes frameTicks f.bytes (.ok f) := by
  have hmax : P2P_PUBLISH_FRAME_MAX < 2 ^ 16 := by decide
  have hle : f.payload.length ≤ P2P_PUBLISH_FRAME_MAX := hf
  have hlen : (UInt16.ofNat f.payload.length).toNat = f.payload.length := by
    rw [UInt16.toNat_ofNat']
    exact Nat.mod_eq_of_lt (hle.trans_lt hmax)
  have hhdr : (f.type :: writeU16 (UInt16.ofNat f.payload.length)).length = 3 := rfl
  have hread : readU16 (writeU16 (UInt16.ofNat f.payload.length)) =
      some (UInt16.ofNat f.payload.length, []) := by
    simpa using readU16_writeU16 (UInt16.ofNat f.payload.length) []
  have hsplit : f.bytes = (f.type :: writeU16 (UInt16.ofNat f.payload.length)) ++ f.payload := rfl
  have hfirst := completes_takeExact (ε := HeaderError)
    (f.type :: writeU16 (UInt16.ofNat f.payload.length))
  rw [hhdr] at hfirst
  rw [hsplit]
  refine hfirst.bind ?_
  simp only [List.headD_cons, List.tail_cons, hread, Option.elim_some, hlen, not_lt.mpr hle,
    if_false]
  split_ifs with hpos
  · have hrest := (completes_takeExact (ε := HeaderError) f.payload).bind
      (f := fun payload ↦ (pure ⟨f.type, payload⟩ : Reader (Ticks UInt8) HeaderError P2pFrame))
      (.pure (⟨f.type, f.payload⟩ : P2pFrame))
    rwa [List.append_nil] at hrest
  · have hnil : f.payload = [] := List.length_eq_zero_iff.mp (by omega)
    have hf : f = ⟨f.type, []⟩ := by rw [← hnil]
    rw [hnil]
    conv_rhs => rw [hf]
    exact .pure _

/-- At most so many rounds of `while (recv_frame(…) == 0)`: the frames that are handled. -/
def recvFrames : ℕ → Wire → List P2pFrame
  | 0, _ => []
  | k + 1, w =>
      match recvFrame w with
      | (.ok f, w') => f :: recvFrames k w'
      | (.error _, _) => []

/-- The frames that `peer_loop` reads of everything that arrives; each takes some bytes, so
these rounds are enough. -/
def peerFrames (w : Wire) : List P2pFrame := recvFrames (w.ticks.length + 1) w

theorem recvFrames_cons {f : P2pFrame} (hf : f.Fits) {w : Wire} {tail : Ticks UInt8}
    (hw : w.ticks = f.bytes.map some ++ tail) (k : ℕ) :
    ∃ w', w'.ticks = tail ∧ recvFrames (k + 1) w = f :: recvFrames k w' := by
  have hsim := recvFrame_simulates w
  rw [hw, (frameTicks_completes hf).full] at hsim
  obtain ⟨h₁, h₂⟩ := Prod.mk.inj hsim
  have hrun : recvFrame w = (.ok f, (recvFrame w).2) := Prod.ext h₁.symm rfl
  refine ⟨(recvFrame w).2, h₂.symm, ?_⟩
  rw [recvFrames, hrun]

/-- A frame that does not arrive as a whole is not handled, and nothing after it. -/
theorem recvFrames_cut {f : P2pFrame} (hf : f.Fits) {w : Wire} {as : Bytes}
    (has : as <+: f.bytes) (hlt : as.length < f.bytes.length)
    (hw : w.ticks = as.map some ∨ ∃ tail, w.ticks = as.map some ++ none :: tail) (k : ℕ) :
    recvFrames k w = [] := by
  obtain ⟨more, hmore⟩ := has
  have hne : more ≠ [] := by
    rintro rfl
    simp [← hmore] at hlt
  obtain ⟨b, more, rfl⟩ := List.exists_cons_of_ne_nil hne
  have hwaits := (frameTicks_completes hf).waits as b more hmore.symm
  have hsim := recvFrame_simulates w
  cases k with
  | zero => rfl
  | succ k =>
      have herror : ∃ e, (recvFrame w).1 = .error e := by
        rcases hw with hw | ⟨tail, hw⟩
        · rw [hw, hwaits.closed] at hsim
          exact ⟨_, (Prod.mk.inj hsim).1.symm⟩
        · rw [hw, hwaits.timeout] at hsim
          exact ⟨_, (Prod.mk.inj hsim).1.symm⟩
      obtain ⟨e, he⟩ := herror
      have hrun : recvFrame w = (.error e, (recvFrame w).2) := Prod.ext he rfl
      rw [recvFrames, hrun]

/-- Of a stream of frames, in whatever chunks and with whatever timeouts its first bytes
arrive, `peer_loop` handles the first frames. -/
theorem recvFrames_prefix {fs : List P2pFrame} (hfs : ∀ f ∈ fs, f.Fits) {w : Wire}
    (hw : w.bytes <+: (fs.map P2pFrame.bytes).flatten) (k : ℕ) : recvFrames k w <+: fs := by
  induction fs generalizing w k with
  | nil =>
      have hnone : ∃ e, (recvFrame w).1 = .error e := by
        have hbytes : w.bytes = [] := by simpa using hw
        have hwaits : Waits frameTicks [] := (waits_takeExact (by simp)).bind
        have hsim := recvFrame_simulates w
        rcases ticks_cases w.ticks with ⟨as, has⟩ | ⟨as, tail, has⟩
        · have hnil : as = [] := by simpa [Wire.bytes, has] using hbytes
          rw [has, hnil, hwaits.closed] at hsim
          exact ⟨_, (Prod.mk.inj hsim).1.symm⟩
        · have hnil : as = [] := by
            have hsplit : as ++ tail.reduceOption = [] := by
              simpa [Wire.bytes, has, List.reduceOption_append] using hbytes
            exact (List.append_eq_nil_iff.mp hsplit).1
          rw [has, hnil, List.map_nil, List.nil_append] at hsim
          rw [show none :: tail = ([] : Bytes).map some ++ none :: tail from rfl,
            hwaits.timeout] at hsim
          exact ⟨_, (Prod.mk.inj hsim).1.symm⟩
      obtain ⟨e, he⟩ := hnone
      cases k with
      | zero => exact List.nil_prefix
      | succ k =>
          have hrun : recvFrame w = (.error e, (recvFrame w).2) := Prod.ext he rfl
          rw [recvFrames, hrun]
  | cons f fs ih =>
      have hf := hfs f List.mem_cons_self
      rw [List.map_cons, List.flatten_cons] at hw
      cases k with
      | zero => exact List.nil_prefix
      | succ k =>
          -- what arrives before the first timeout is the whole frame or a part of it
          obtain ⟨as, l, hticks, hl, has⟩ : ∃ (as : Bytes) (l : Ticks UInt8),
              w.ticks = as.map some ++ l ∧ (l = [] ∨ ∃ tail, l = none :: tail) ∧
                as ++ l.reduceOption <+: f.bytes ++ (fs.map P2pFrame.bytes).flatten := by
            rcases ticks_cases w.ticks with ⟨as, has⟩ | ⟨as, tail, has⟩
            · refine ⟨as, [], by simpa using has, Or.inl rfl, ?_⟩
              simpa [Wire.bytes, has] using hw
            · refine ⟨as, none :: tail, has, Or.inr ⟨tail, rfl⟩, ?_⟩
              simpa [Wire.bytes, has, List.reduceOption_append] using hw
          by_cases hlen : f.bytes.length ≤ as.length
          · have hpre : f.bytes <+: as := by
              have hpart := (List.prefix_append as l.reduceOption).trans has
              exact List.prefix_of_prefix_length_le (List.prefix_append _ _) hpart hlen
            obtain ⟨as', rfl⟩ := hpre
            rw [List.map_append, List.append_assoc] at hticks
            obtain ⟨w', hw', hrun⟩ := recvFrames_cons hf hticks k
            rw [hrun]
            refine List.prefix_cons_inj f |>.mpr (ih (fun g hg ↦ hfs g (List.mem_cons_of_mem f hg))
              ?_ k)
            have hbytes : w'.bytes = as' ++ l.reduceOption := by
              simp [Wire.bytes, hw', List.reduceOption_append]
            rw [List.append_assoc, List.prefix_append_right_inj] at has
            rwa [hbytes]
          · have hpre : as <+: f.bytes := by
              have hpart := (List.prefix_append as l.reduceOption).trans has
              exact List.prefix_of_prefix_length_le hpart (List.prefix_append _ _) (by omega)
            have hcut := recvFrames_cut hf hpre (not_le.mp hlen) (w := w) (k := k + 1) (by
              rcases hl with rfl | ⟨tail, rfl⟩
              · exact Or.inl (by simpa using hticks)
              · exact Or.inr ⟨tail, hticks⟩)
            rw [hcut]
            exact List.nil_prefix

/-- If all of it arrives without a timeout it handles all of them. -/
theorem peerFrames_all {fs : List P2pFrame} (hfs : ∀ f ∈ fs, f.Fits) {w : Wire}
    (hw : w.ticks = ((fs.map P2pFrame.bytes).flatten).map some) : peerFrames w = fs := by
  have hrounds : ∀ k, w.ticks.length < k → recvFrames k w = fs := by
    induction fs generalizing w with
    | nil =>
        intro k _
        have hbytes : w.bytes <+: (([] : List P2pFrame).map P2pFrame.bytes).flatten := by
          simp [Wire.bytes, hw]
        exact List.prefix_nil.mp <| recvFrames_prefix (by simp) hbytes k
    | cons f fs ih =>
        intro k hk
        rw [List.map_cons, List.flatten_cons, List.map_append] at hw
        have hlen := f.length_bytes
        have hticks : w.ticks.length = f.bytes.length + ((fs.map P2pFrame.bytes).flatten).length := by
          rw [hw, List.length_append, List.length_map, List.length_map]
        obtain ⟨k, rfl⟩ : ∃ j, k = j + 1 := ⟨k - 1, by omega⟩
        obtain ⟨w', hw', hrun⟩ := recvFrames_cons (hfs f List.mem_cons_self) hw k
        have htail : w'.ticks.length = ((fs.map P2pFrame.bytes).flatten).length := by
          rw [hw', List.length_map]
        rw [hrun, ih (fun g hg ↦ hfs g (List.mem_cons_of_mem f hg)) hw' k (by omega)]
  exact hrounds _ (Nat.lt_succ_self _)

/-! ## Sending -/

/-- `sizeof(p2p_announce_t)` -/
def P2P_ANNOUNCE_SIZE : ℕ := P2P_NODE_ID_LEN + 9

/-- How far `peer_loop` is with `send_hello`. -/
inductive Greeting where
  | before
  | writing
  | done
  | failed
  deriving DecidableEq

/-- One TCP connection at the side that sends, from `peer_loop` on; `τ` are the threads. -/
structure Link (τ : Type) where
  /-- what the transport has taken, and the calls of `send_frame` -/
  writers : Writers.State τ UInt8
  greeting : Greeting
  /-- the send slot holds the connection -/
  entered : Bool
  /-- who holds `send_locks[slot]` to send -/
  holder : Option τ
  /-- ghost -/
  notes : Writers.Notes UInt8
  /-- ghost: the frames that `send_frame` was called for -/
  asked : List P2pFrame
  /-- ghost: a call has failed -/
  failed : Bool

inductive LinkEvent (τ : Type) where
  /-- `send_hello` begins -/
  | hello (ann : Bytes)
  | greeted
  /-- `send_slot_update` -/
  | enter
  /-- `send_slot_clear` -/
  | clear
  /-- a thread finds the slot, takes its lock and calls `send_frame` -/
  | lock (w : τ) (f : P2pFrame)
  /-- `plat_send` takes so many bytes -/
  | put (w : τ) (n : ℕ)
  /-- `send_frame` returns 0 -/
  | unlock (w : τ)
  /-- `plat_send` fails, and with it `send_frame` -/
  | fail (w : τ)

namespace Link

variable [DecidableEq τ]

def init (τ : Type) : Link τ := ⟨Writers.init τ UInt8, .before, false, none, {}, [], false⟩

/-- A step of a thread in `send_frame`. -/
def write (s : Link τ) (e : Writers.Event τ UInt8) : Option (Link τ) :=
  (Writers.step s.writers e).map fun ws ↦
    { s with writers := ws, notes := Writers.note s.writers e s.notes }

/-- One step; `owner` is the thread that runs `peer_loop`. -/
def step (owner : τ) (s : Link τ) : LinkEvent τ → Option (Link τ)
  | .hello ann =>
      let f : P2pFrame := ⟨P2pType.hello, ann⟩
      if s.greeting = .before ∧ ann.length = P2P_ANNOUNCE_SIZE then
        ({ s with greeting := .writing, asked := s.asked ++ [f] }).write (.start owner f.bytes)
      else none
  | .greeted =>
      if s.greeting = .writing then ({ s with greeting := .done }).write (.finish owner) else none
  | .enter =>
      if s.greeting = .done ∧ s.holder = none then some { s with entered := true } else none
  | .clear => if s.holder = none then some { s with entered := false } else none
  | .lock w f =>
      if s.entered = true ∧ s.holder = none ∧ f.Fits then
        ({ s with holder := some w, asked := s.asked ++ [f] }).write (.start w f.bytes)
      else none
  | .put w n => s.write (.put w n)
  | .unlock w =>
      if s.holder = some w then ({ s with holder := none }).write (.finish w) else none
  | .fail w =>
      if s.holder = some w then
        ({ s with holder := none, failed := true }).write (.abort w)
      else if s.greeting = .writing ∧ w = owner then
        ({ s with greeting := .failed, failed := true }).write (.abort w)
      else none

/-- After a `send_frame` that failed in the middle of a frame the transport takes nothing. -/
def FailureFinal (s : Link τ) (e : LinkEvent τ) : Prop :=
  ∀ w n, e = .put w n → s.notes.cut = false

/-- The runs in which failures are final. -/
inductive Run (owner : τ) : Link τ → Prop where
  | init : Run owner (init τ)
  | step {s s' : Link τ} {e : LinkEvent τ} (h : Run owner s) (hfinal : FailureFinal s e)
      (hstep : s.step owner e = some s') : Run owner s'

/-- A run given by its events. -/
def run (owner : τ) (s : Link τ) (es : List (LinkEvent τ)) : Option (Link τ) :=
  es.foldlM (step owner) s

/-- Nobody is in `send_frame`. -/
def Idle (s : Link τ) : Prop := ∀ w, s.writers.pending w = none

/-! ## Who writes -/

/-- Only the holder of the lock writes, or before the slot is entered the thread itself. -/
structure Exclusive (owner : τ) (s : Link τ) : Prop where
  writing : ∀ w p, s.writers.pending w = some p →
    s.holder = some w ∨ s.greeting = .writing ∧ w = owner ∧ s.holder = none
  holder : ∀ w, s.holder = some w → s.greeting = .done
  entered : s.entered = true → s.greeting = .done

omit [DecidableEq τ] in
theorem Exclusive.unique {owner : τ} {s : Link τ} (h : Exclusive owner s) {v w : τ}
    {p q : Writers.Pending UInt8} (hv : s.writers.pending v = some p)
    (hw : s.writers.pending w = some q) : v = w := by
  rcases h.writing v p hv with hv | ⟨-, rfl, hv⟩ <;> rcases h.writing w q hw with hw | ⟨-, rfl, hw⟩
  · exact Option.some.inj (hv.symm.trans hw)
  · rw [hv] at hw
    cases hw
  · rw [hw] at hv
    cases hv
  · rfl

/-- What the frames are that were begun: in `fs`, in the order of the calls. -/
structure Frames (s : Link τ) (fs : List P2pFrame) : Prop where
  begun : s.notes.begun = fs.map P2pFrame.bytes
  sub : fs.Sublist s.asked
  fits : ∀ f ∈ s.asked, f.Fits
  pending : ∀ w p, s.writers.pending w = some p → ∃ front f, s.asked = front ++ [f] ∧
    p.item = f.bytes ∧ (p.done = 0 → fs.Sublist front ∧ (s.failed = false → fs = front)) ∧
      (p.done ≠ 0 → fs ≠ [] ∧ (s.failed = false → fs = s.asked))
  idle : s.failed = false → s.Idle → fs = s.asked
  short : s.greeting ≠ .done → ∀ f ∈ s.asked, f.type = P2pType.hello
  opened : s.greeting = .done → fs ≠ []
  head : ∀ f ∈ fs.head?, f.type = P2pType.hello
  fresh : s.greeting = .before → s.asked = []

structure Invariant (owner : τ) (s : Link τ) : Prop where
  run : Writers.Run s.writers s.notes
  exclusive : Exclusive owner s
  cut : s.failed = false → s.notes.cut = false
  frames : ∃ fs, Frames s fs

/-! ## A step -/

variable {owner : τ} {s s' : Link τ}

theorem write_eq_some {e : Writers.Event τ UInt8} (h : s.write e = some s') :
    ∃ ws, Writers.step s.writers e = some ws ∧
      s' = { s with writers := ws, notes := Writers.note s.writers e s.notes } := by
  obtain ⟨ws, hws, rfl⟩ := Option.map_eq_some_iff.mp h
  exact ⟨ws, hws, rfl⟩

/-- `send_frame` begins. -/
theorem Frames.start {fs : List P2pFrame} (h : Frames s fs) (hidle : s.Idle) {w : τ}
    {f : P2pFrame} (hf : f.Fits) {s' : Link τ}
    (hws : s'.writers.pending = Function.update s.writers.pending w (some ⟨f.bytes, 0⟩))
    (hasked : s'.asked = s.asked ++ [f]) (hnotes : s'.notes = s.notes)
    (hfailed : s'.failed = s.failed)
    (hgreeting : s'.greeting = .done ∧ s.greeting = .done ∨
      s'.greeting = .writing ∧ s.greeting = .before ∧ f.type = P2pType.hello) :
    Frames s' fs where
  begun := by rw [hnotes, h.begun]
  sub := by
    rw [hasked]
    exact h.sub.trans (List.sublist_append_left _ _)
  fits g hg := by
    rw [hasked] at hg
    rcases List.mem_append.mp hg with hg | hg
    · exact h.fits g hg
    · rwa [List.mem_singleton.mp hg]
  pending v p hp := by
    rw [hws] at hp
    by_cases hv : v = w
    · subst hv
      rw [Function.update_self] at hp
      obtain rfl := Option.some.inj hp
      refine ⟨s.asked, f, hasked, rfl, fun _ ↦ ⟨h.sub, fun hno ↦ ?_⟩, fun hne ↦ absurd rfl hne⟩
      exact h.idle (hfailed ▸ hno) hidle
    · rw [Function.update_of_ne hv, hidle v] at hp
      cases hp
  idle _ hnone := by
    have hw := hnone w
    rw [hws, Function.update_self] at hw
    cases hw
  short hne g hg := by
    rcases hgreeting with ⟨hdone, -⟩ | ⟨-, hbefore, htype⟩
    · exact absurd hdone hne
    · rw [hasked, h.fresh hbefore] at hg
      rw [List.mem_singleton.mp hg, htype]
  opened hdone := by
    rcases hgreeting with ⟨-, hold⟩ | ⟨hwriting, -⟩
    · exact h.opened hold
    · rw [hwriting] at hdone
      cases hdone
  head := h.head
  fresh hbefore := by
    rcases hgreeting with ⟨hdone, -⟩ | ⟨hwriting, -⟩
    · rw [hdone] at hbefore
      cases hbefore
    · rw [hwriting] at hbefore
      cases hbefore

/-- The transport takes some more of a frame. -/
theorem Frames.put {fs : List P2pFrame} (h : Frames s fs) (hone : Exclusive owner s) {w : τ}
    {n : ℕ} {ws : Writers.State τ UInt8} (hstep : Writers.step s.writers (.put w n) = some ws) :
    ∃ fs', Frames { s with
      writers := ws
      notes := Writers.note s.writers (.put w n) s.notes } fs' := by
  cases Writers.step_cases hstep with
  | put w n p hp hn hfits =>
      obtain ⟨front, f, hasked, hitem, hfirst, hlater⟩ := h.pending w p hp
      have hother : ∀ {v : τ} {q : Writers.Pending UInt8}, v ≠ w → s.writers.pending v ≠ some q :=
        fun hv hq ↦ hv (hone.unique hq hp)
      have hbusy : ∀ q, ¬∀ v, Function.update s.writers.pending w (some q) v = none := by
        intro q hnone
        have hw := hnone w
        rw [Function.update_self] at hw
        cases hw
      by_cases hzero : p.done = 0
      · obtain ⟨hsub, heq⟩ := hfirst hzero
        refine ⟨fs ++ [f], ?_, ?_, h.fits, fun v q hq ↦ ?_, fun _ hnone ↦ absurd hnone (hbusy _),
          h.short, fun _ ↦ by simp, ?_, h.fresh⟩
        · simp [Writers.note, hp, hzero, h.begun, hitem]
        · rw [hasked]
          exact hsub.append_right [f]
        · by_cases hv : v = w
          · subst hv
            dsimp only at hq
            rw [Function.update_self] at hq
            obtain rfl := Option.some.inj hq
            refine ⟨front, f, hasked, hitem, fun hbad ↦ ?_, fun _ ↦ ⟨by simp, fun hno ↦ ?_⟩⟩
            · dsimp only at hbad
              omega
            · rw [heq hno, hasked]
          · dsimp only at hq
            rw [Function.update_of_ne hv] at hq
            exact absurd hq (hother hv)
        · cases fs with
          | cons g fs => simpa using h.head
          | nil =>
              have hnot : s.greeting ≠ .done := fun hdone ↦ h.opened hdone rfl
              have htype := h.short hnot f (by simp [hasked])
              simpa using htype
      · obtain ⟨hne, heq⟩ := hlater hzero
        refine ⟨fs, ?_, h.sub, h.fits, fun v q hq ↦ ?_, fun _ hnone ↦ absurd hnone (hbusy _),
          h.short, h.opened, h.head, h.fresh⟩
        · simp [Writers.note, hp, hzero, h.begun]
        · by_cases hv : v = w
          · subst hv
            dsimp only at hq
            rw [Function.update_self] at hq
            obtain rfl := Option.some.inj hq
            refine ⟨front, f, hasked, hitem, fun hbad ↦ ?_, fun _ ↦ ⟨hne, heq⟩⟩
            dsimp only at hbad
            omega
          · dsimp only at hq
            rw [Function.update_of_ne hv] at hq
            exact absurd hq (hother hv)

/-- `send_frame` returns. -/
theorem Frames.settle {fs : List P2pFrame} (h : Frames s fs) (hone : Exclusive owner s) {w : τ}
    {p : Writers.Pending UInt8} (hp : s.writers.pending w = some p) {s' : Link τ}
    (hws : s'.writers.pending = Function.update s.writers.pending w none)
    (hasked : s'.asked = s.asked) (hbegun : s'.notes.begun = s.notes.begun)
    (hok : s'.failed = false → s.failed = false ∧ p.done = p.item.length)
    (hgreeting : s'.greeting = s.greeting ∨ s.greeting = .writing ∧ s'.greeting = .failed ∨
      s.greeting = .writing ∧ s'.greeting = .done ∧ p.done = p.item.length) :
    Frames s' fs := by
  obtain ⟨front, f, hlast, hitem, -, hlater⟩ := h.pending w p hp
  have hlong : p.done = p.item.length → p.done ≠ 0 := by
    intro hend hzero
    rw [hzero, hitem] at hend
    exact P2pFrame.bytes_ne_nil f (List.length_eq_zero_iff.mp hend.symm)
  refine ⟨by rw [hbegun, h.begun], by rw [hasked]; exact h.sub, by rw [hasked]; exact h.fits,
    fun v q hq ↦ ?_, fun hno _ ↦ ?_, fun hne g hg ↦ ?_, fun hdone ↦ ?_, h.head, fun hbefore ↦ ?_⟩
  · rw [hws] at hq
    by_cases hv : v = w
    · subst hv
      rw [Function.update_self] at hq
      cases hq
    · rw [Function.update_of_ne hv] at hq
      exact absurd (hone.unique hq hp) hv
  · obtain ⟨hold, hend⟩ := hok hno
    rw [hasked]
    exact (hlater (hlong hend)).2 hold
  · rw [hasked] at hg
    rcases hgreeting with hsame | ⟨hwriting, -⟩ | ⟨-, hdone, -⟩
    · exact h.short (hsame ▸ hne) g hg
    · exact h.short (by simp [hwriting]) g hg
    · exact absurd hdone hne
  · rcases hgreeting with hsame | ⟨-, hfailed⟩ | ⟨-, -, hend⟩
    · exact h.opened (hsame ▸ hdone)
    · rw [hfailed] at hdone
      cases hdone
    · exact (hlater (hlong hend)).1
  · rcases hgreeting with hsame | ⟨-, hfailed⟩ | ⟨-, hdone, -⟩
    · rw [hasked]
      exact h.fresh (hsame ▸ hbefore)
    · rw [hfailed] at hbefore
      cases hbefore
    · rw [hdone] at hbefore
      cases hbefore

omit [DecidableEq τ] in
/-- Where nobody holds the lock, and no HELLO is being written, nobody is in `send_frame`. -/
theorem Exclusive.idle (h : Exclusive owner s) (hholder : s.holder = none)
    (hgreeting : s.greeting ≠ .writing) : s.Idle := by
  intro w
  cases hp : s.writers.pending w with
  | none => rfl
  | some p =>
      rcases h.writing w p hp with hw | ⟨hw, -⟩
      · rw [hholder] at hw
        cases hw
      · exact absurd hw hgreeting

/-- One writer alone is in order, as long as failures are final. -/
theorem Exclusive.orderly (h : Exclusive owner s) {w : τ} {n : ℕ}
    {ws : Writers.State τ UInt8} (hstep : Writers.step s.writers (.put w n) = some ws)
    (hfinal : s.notes.cut = false) : Writers.Orderly s.writers s.notes (.put w n) := by
  cases Writers.step_cases hstep with
  | put _ _ p hp =>
      rintro w' k heq
      cases heq
      exact ⟨hfinal, fun v hv q hq ↦ absurd (h.unique hq hp) hv⟩

/-- The step lemma. -/
theorem Invariant.step {e : LinkEvent τ} (h : Invariant owner s) (hfinal : FailureFinal s e)
    (hstep : s.step owner e = some s') : Invariant owner s' := by
  obtain ⟨hrun, hone, hcut, fs, hframes⟩ := h
  have hadvance : ∀ {ev : Writers.Event τ UInt8} {ws : Writers.State τ UInt8},
      Writers.Orderly s.writers s.notes ev → Writers.step s.writers ev = some ws →
      Writers.Run ws (Writers.note s.writers ev s.notes) := fun ho hs ↦ Observer.Reach.step hrun ho hs
  have hquiet : ∀ {ev : Writers.Event τ UInt8} {ws : Writers.State τ UInt8},
      (∀ w n, ev ≠ .put w n) → Writers.step s.writers ev = some ws →
      Writers.Run ws (Writers.note s.writers ev s.notes) :=
    fun hno ↦ hadvance fun w n heq ↦ absurd heq (hno w n)
  cases e with
  | hello ann =>
      simp only [Link.step] at hstep
      split_ifs at hstep with hguard
      obtain ⟨hbefore, hlen⟩ := hguard
      obtain ⟨ws, hws, rfl⟩ := write_eq_some hstep
      have hholder : s.holder = none := by
        cases hh : s.holder with
        | none => rfl
        | some w =>
            have hdone := hone.holder w hh
            rw [hbefore] at hdone
            cases hdone
      have hidle := hone.idle hholder (by simp [hbefore])
      have hfits : (⟨P2pType.hello, ann⟩ : P2pFrame).Fits := by
        change ann.length ≤ _
        rw [hlen]
        decide
      have hrun' := hquiet (by simp) hws
      cases Writers.step_cases hws with
      | start _ _ hnone =>
          refine ⟨hrun', ⟨fun v p hp ↦ ?_, fun w hw ↦ ?_, fun hentered ↦ ?_⟩, hcut, fs,
            hframes.start hidle hfits rfl rfl rfl rfl (Or.inr ⟨rfl, hbefore, rfl⟩)⟩
          · by_cases hv : v = owner
            · exact Or.inr ⟨rfl, hv, hholder⟩
            · dsimp only at hp
              rw [Function.update_of_ne hv, hidle v] at hp
              cases hp
          · dsimp only at hw
            rw [hholder] at hw
            cases hw
          · have hdone := hone.entered hentered
            rw [hbefore] at hdone
            cases hdone
  | greeted =>
      simp only [Link.step] at hstep
      split_ifs at hstep with hwriting
      obtain ⟨ws, hws, rfl⟩ := write_eq_some hstep
      have hrun' := hquiet (by simp) hws
      cases Writers.step_cases hws with
      | finish _ p hp hend =>
          refine ⟨hrun', ⟨fun v q hq ↦ ?_, fun w _ ↦ rfl, fun _ ↦ rfl⟩, hcut, fs, hframes.settle hone hp
            rfl rfl rfl (fun hno ↦ ⟨hno, hend⟩) (Or.inr (Or.inr ⟨hwriting, rfl, hend⟩))⟩
          by_cases hv : v = owner
          · subst hv
            dsimp only at hq
            rw [Function.update_self] at hq
            cases hq
          · dsimp only at hq
            rw [Function.update_of_ne hv] at hq
            exact absurd (hone.unique hq hp) hv
  | enter =>
      simp only [Link.step] at hstep
      split_ifs at hstep with hguard
      cases hstep
      exact ⟨hrun, ⟨hone.writing, hone.holder, fun _ ↦ hguard.1⟩, hcut, fs, ⟨hframes.begun, hframes.sub,
        hframes.fits, hframes.pending, hframes.idle, hframes.short, hframes.opened, hframes.head,
        hframes.fresh⟩⟩
  | clear =>
      simp only [Link.step] at hstep
      split_ifs at hstep with hguard
      cases hstep
      exact ⟨hrun, ⟨hone.writing, hone.holder, by simp⟩, hcut, fs, ⟨hframes.begun, hframes.sub,
        hframes.fits, hframes.pending, hframes.idle, hframes.short, hframes.opened, hframes.head,
        hframes.fresh⟩⟩
  | lock w f =>
      simp only [Link.step] at hstep
      split_ifs at hstep with hguard
      obtain ⟨hentered, hholder, hfits⟩ := hguard
      obtain ⟨ws, hws, rfl⟩ := write_eq_some hstep
      have hdone := hone.entered hentered
      have hidle := hone.idle hholder (by simp [hdone])
      have hrun' := hquiet (by simp) hws
      cases Writers.step_cases hws with
      | start _ _ hnone =>
          refine ⟨hrun', ⟨fun v p hp ↦ ?_, fun _ _ ↦ hdone, fun _ ↦ hdone⟩, hcut, fs,
            hframes.start hidle hfits rfl rfl rfl rfl (Or.inl ⟨hdone, hdone⟩)⟩
          by_cases hv : v = w
          · exact Or.inl (congrArg some hv.symm)
          · dsimp only at hp
            rw [Function.update_of_ne hv, hidle v] at hp
            cases hp
  | put w n =>
      obtain ⟨ws, hws, rfl⟩ := write_eq_some hstep
      have hrun' := hadvance (hone.orderly hws (hfinal w n rfl)) hws
      have hsame : (Writers.note s.writers (.put w n) s.notes).cut = s.notes.cut := by
        simp only [Writers.note]
        split
        · split_ifs <;> rfl
        · rfl
      refine ⟨hrun', ⟨fun v p hp ↦ ?_, hone.holder, hone.entered⟩,
        fun hno ↦ hsame.trans (hcut hno), hframes.put hone hws⟩
      cases Writers.step_cases hws with
      | put _ _ q hq =>
          by_cases hv : v = w
          · subst hv
            exact hone.writing v q hq
          · dsimp only at hp
            rw [Function.update_of_ne hv] at hp
            exact hone.writing v p hp
  | unlock w =>
      simp only [Link.step] at hstep
      split_ifs at hstep with hholder
      obtain ⟨ws, hws, rfl⟩ := write_eq_some hstep
      have hdone := hone.holder w hholder
      have hrun' := hquiet (by simp) hws
      cases Writers.step_cases hws with
      | finish _ p hp hend =>
          refine ⟨hrun', ⟨fun v q hq ↦ ?_, by simp, hone.entered⟩, hcut, fs, hframes.settle hone hp
            rfl rfl rfl (fun hno ↦ ⟨hno, hend⟩) (Or.inl rfl)⟩
          by_cases hv : v = w
          · subst hv
            dsimp only at hq
            rw [Function.update_self] at hq
            cases hq
          · dsimp only at hq
            rw [Function.update_of_ne hv] at hq
            exact absurd (hone.unique hq hp) hv
  | fail w =>
      have hnotes : (Writers.note s.writers (.abort w) s.notes).begun = s.notes.begun := by
        simp only [Writers.note]
        split <;> rfl
      have hgone : ∀ {ws : Writers.State τ UInt8},
          Writers.step s.writers (.abort w) = some ws → ∀ v q, ws.pending v ≠ some q := by
        intro ws hws v q hq
        cases Writers.step_cases hws with
        | abort _ p hp =>
            by_cases hv : v = w
            · subst hv
              dsimp only at hq
              rw [Function.update_self] at hq
              cases hq
            · dsimp only at hq
              rw [Function.update_of_ne hv] at hq
              exact absurd (hone.unique hq hp) hv
      simp only [Link.step] at hstep
      split_ifs at hstep with hholder hhello
      · obtain ⟨ws, hws, rfl⟩ := write_eq_some hstep
        have hrun' := hquiet (by simp) hws
        refine ⟨hrun', ⟨fun v q hq ↦ absurd hq (hgone hws v q), by simp, hone.entered⟩, by simp, fs, ?_⟩
        cases Writers.step_cases hws with
        | abort _ p hp =>
            exact hframes.settle hone hp rfl rfl hnotes (by simp) (Or.inl rfl)
      · obtain ⟨hwriting, rfl⟩ := hhello
        obtain ⟨ws, hws, rfl⟩ := write_eq_some hstep
        have hrun' := hquiet (by simp) hws
        have hnot : ∀ {P : Prop}, s.greeting = .done → P := by
          intro P hdone
          rw [hwriting] at hdone
          cases hdone
        refine ⟨hrun', ⟨fun v q hq ↦ absurd hq (hgone hws v q),
          fun v hv ↦ hnot (hone.holder v hv), fun hv ↦ hnot (hone.entered hv)⟩, by simp, fs, ?_⟩
        cases Writers.step_cases hws with
        | abort _ p hp =>
            exact hframes.settle hone hp rfl rfl hnotes (by simp) (Or.inr (Or.inl ⟨hwriting, rfl⟩))

/-- The run lemma. -/
theorem invariant_of_run (h : Run owner s) : Invariant owner s := by
  induction h with
  | init =>
      refine ⟨.start, ⟨nofun, nofun, nofun⟩, fun _ ↦ rfl, [], rfl, List.Sublist.refl _, nofun, nofun,
        fun _ _ ↦ rfl, nofun, nofun, nofun, fun _ ↦ rfl⟩
  | step _ hfinal hstep ih => exact ih.step hfinal hstep

/-- However many threads send and however the transport takes and delivers their bytes:
the other side handles frames for which `send_frame` was called, each once and in the order
of the calls, and a HELLO first.  If no call fails it handles the first ones, and all once
they have arrived without a timeout. -/
theorem link_frames (h : Run owner s) (w : Wire) (hw : w.bytes <+: s.writers.stream) :
    (peerFrames w).Sublist s.asked ∧ (∀ f ∈ (peerFrames w).head?, f.type = P2pType.hello) ∧
      (s.failed = false → peerFrames w <+: s.asked ∧
        (s.Idle → w.ticks = s.writers.stream.map some → peerFrames w = s.asked)) := by
  obtain ⟨hrun, hone, hcut, fs, hframes⟩ := invariant_of_run h
  have hfits : ∀ f ∈ fs, f.Fits := fun f hf ↦ hframes.fits f (hframes.sub.mem hf)
  have hbytes : w.bytes <+: (fs.map P2pFrame.bytes).flatten := by
    rw [← hframes.begun]
    exact hw.trans hrun.isPrefix
  have hread : peerFrames w <+: fs := recvFrames_prefix hfits hbytes _
  refine ⟨hread.sublist.trans hframes.sub, fun f hf ↦ ?_, fun hno ↦ ⟨?_, fun hidle hall ↦ ?_⟩⟩
  · obtain ⟨more, hmore⟩ := hread
    refine hframes.head f ?_
    cases hfirst : peerFrames w with
    | nil =>
        rw [hfirst] at hf
        cases hf
    | cons g gs =>
        rw [hfirst] at hf
        rwa [← hmore, hfirst]
  · -- what was called for last may not have begun yet
    by_cases hidle : s.Idle
    · rwa [← hframes.idle hno hidle]
    · obtain ⟨v, hv⟩ := not_forall.mp hidle
      obtain ⟨p, hp⟩ := Option.ne_none_iff_exists'.mp hv
      obtain ⟨front, f, hasked, -, hfirst, hlater⟩ := hframes.pending v p hp
      by_cases hzero : p.done = 0
      · rw [hasked, ← (hfirst hzero).2 hno]
        exact hread.trans (List.prefix_append _ _)
      · rwa [← (hlater hzero).2 hno]
  · have hstream := hrun.eq_flatten (hcut hno) fun v p hp ↦ by simp [hidle v] at hp
    rw [← hframes.idle hno hidle]
    refine peerFrames_all hfits ?_
    rw [hall, hstream, hframes.begun]

theorem failed_step {e : LinkEvent τ} (hno : ∀ w, e ≠ .fail w)
    (hstep : s.step owner e = some s') : s'.failed = s.failed := by
  cases e with
  | fail w => exact absurd rfl (hno w)
  | enter | clear =>
      simp only [Link.step] at hstep
      split_ifs at hstep
      cases hstep
      rfl
  | put w n =>
      obtain ⟨ws, -, rfl⟩ := write_eq_some hstep
      rfl
  | hello | greeted | lock | unlock =>
      simp only [Link.step] at hstep
      split_ifs at hstep
      obtain ⟨ws, -, rfl⟩ := write_eq_some hstep
      rfl

/-- A run in which no call fails. -/
theorem Run.run {es : List (LinkEvent τ)} (hno : ∀ w, .fail w ∉ es) (h : Run owner s)
    (hfailed : s.failed = false) (hrun : s.run owner es = some s') :
    Run owner s' ∧ s'.failed = false := by
  induction es generalizing s with
  | nil =>
      cases hrun
      exact ⟨h, hfailed⟩
  | cons e es ih =>
      obtain ⟨s₁, hstep, hrest⟩ := Option.bind_eq_some_iff.mp hrun
      have hcut := (invariant_of_run h).cut hfailed
      have hnot : ∀ w, e ≠ .fail w := fun w heq ↦ hno w (heq ▸ List.mem_cons_self)
      exact ih (fun w hmem ↦ hno w (List.mem_cons_of_mem e hmem)) (h.step (fun _ _ _ ↦ hcut) hstep)
        ((failed_step hnot hstep).trans hfailed) hrest

end Link

namespace Sample

/-- Thread 0 sends a HELLO in two pieces and enters the slot, and thread 1 sends a frame. -/
def linkEvents : List (LinkEvent ℕ) :=
  [.hello (List.replicate 25 7), .put 0 10, .put 0 18, .greeted, .enter, .lock 1 ⟨4, [9]⟩, .put 1 2,
    .put 1 2, .unlock 1]

/-- What the other side receives, in two chunks. -/
def linkWire : Wire :=
  [.data 1 ([0, 25] ++ List.replicate 25 7), .data 4 [0, 1, 9]]

end Sample

theorem link_frames_two : ∃ s : Link ℕ, Link.Run 0 s ∧
    peerFrames Sample.linkWire = s.asked ∧ s.asked.length = 2 := by
  have hrun : ((Link.init ℕ).run 0 Sample.linkEvents).isSome = true := by decide
  obtain ⟨s, hend⟩ := Option.isSome_iff_exists.mp hrun
  obtain ⟨hreach, hfailed⟩ := Link.Run.init.run (by simp [Sample.linkEvents]) rfl hend
  have hfacts : ((Link.init ℕ).run 0 Sample.linkEvents).map (fun s ↦ (s.writers.stream,
      s.holder, s.greeting, s.asked.length)) =
        some (Sample.linkWire.bytes, none, .done, 2) := by decide
  rw [hend] at hfacts
  simp only [Option.map_some, Option.some.injEq, Prod.mk.injEq] at hfacts
  obtain ⟨hstream, hholder, hgreeting, hlength⟩ := hfacts
  have hidle : s.Idle :=
    (Link.invariant_of_run hreach).exclusive.idle hholder (by simp [hgreeting])
  have hframes := (Link.link_frames hreach Sample.linkWire (by rw [hstream])).2.2 hfailed
  refine ⟨s, hreach, hframes.2 hidle ?_, hlength⟩
  rw [hstream]
  rfl

end MqttBroker
