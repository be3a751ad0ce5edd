import MqttBroker.Client.Receive

/-!
# Timeouts between and inside packets

When the receive loop gives its handlers the same packets as it would without
timeouts, and loses no bytes.
-/

namespace MqttBroker

open TickReader

/-! ## Chunks do not matter -/

@[simp] theorem Wire.ticks_pushChunk (bs : Bytes) (w : Wire) :
    (Wire.pushChunk bs w).ticks = bs.map some ++ w.ticks := by
  cases bs <;> rfl

theorem recvExact_simulates (n : ℕ) :
    Simulates Wire.ticks (recvExact n) (takeExact n : Reader (Ticks UInt8) HeaderError Bytes) := by
  intro w
  induction w generalizing n with
  | nil => cases n <;> simp [recvExact, takeExact, Wire.ticks]
  | cons a w ih =>
      cases n with
      | zero => simp [recvExact, takeExact]
      | succ n =>
          cases a with
          | timeout => simp [recvExact, takeExact, Wire.ticks]
          | data b bs =>
              by_cases hn : n < bs.length
              · have hlen : (b :: bs.take n).length = n + 1 := by
                  simp
                  omega
                have hticks : Wire.ticks (.data b bs :: w) =
                    (b :: bs.take n).map some ++ ((bs.drop n).map some ++ Wire.ticks w) := by
                  rw [← List.append_assoc, ← List.map_append, List.cons_append,
                    List.take_append_drop]
                  rfl
                rw [hticks, ← hlen, takeExact_append]
                simp [recvExact, hlen, hn]
              · have hlen : n + 1 = (b :: bs).length + (n - bs.length) := by
                  simp only [List.length_cons]
                  omega
                have hticks : Wire.ticks (.data b bs :: w) = (b :: bs).map some ++ Wire.ticks w := rfl
                have hrun : recvExact (n + 1) (.data b bs :: w) =
                    ((recvExact (n - bs.length) w).1.map (b :: bs ++ ·),
                      (recvExact (n - bs.length) w).2) := by
                  simp [recvExact, hn]
                rw [hticks, hrun, hlen, takeExact_add, ih]

theorem recvLength_simulates {ω ω' : Type} {φ : ω → ω'}
    {recv : ℕ → Reader ω HeaderError Bytes} {recv' : ℕ → Reader ω' HeaderError Bytes}
    (h : ∀ n, Simulates φ (recv n) (recv' n)) (k : ℕ) (last : UInt8) (rlen multiplier : ℕ) :
    Simulates φ (recvLength recv k last rlen multiplier)
      (recvLength recv' k last rlen multiplier) := by
  induction k generalizing last rlen multiplier with
  | zero =>
      unfold recvLength
      split_ifs
      · exact .pure φ rlen
      · exact (h 1).bind fun _ ↦ .stop φ _
  | succ k ih =>
      unfold recvLength
      split_ifs
      · exact .pure φ rlen
      · exact (h 1).bind fun byte ↦ ih _ _ _

theorem recvPacketWith_simulates {ω ω' : Type} {φ : ω → ω'}
    {recv : ℕ → Reader ω HeaderError Bytes} {recv' : ℕ → Reader ω' HeaderError Bytes}
    (h : ∀ n, Simulates φ (recv n) (recv' n)) :
    Simulates φ (recvPacketWith recv) (recvPacketWith recv') := by
  unfold recvPacketWith
  refine (h 2).bind fun hdr ↦ (recvLength_simulates h _ _ _ _).bind fun rlen ↦ ?_
  split_ifs
  · exact .stop φ _
  · exact (h rlen).bind fun buf ↦ .pure φ _
  · exact .pure φ _

/-- `recv_packet` on single bytes. -/
def recvTicks : Reader (Ticks UInt8) HeaderError MqttPacket := recvPacketWith takeExact

theorem recvPacket_simulates : Simulates Wire.ticks recvPacket recvTicks :=
  recvPacketWith_simulates recvExact_simulates

/-! ## Frames -/

theorem recvLength_prefixed (k : ℕ) (last : UInt8) (rlen multiplier : ℕ) :
    Prefixed (recvLength takeExact k last rlen multiplier) := by
  induction k generalizing last rlen multiplier with
  | zero =>
      unfold recvLength
      split_ifs
      · exact (Completes.pure rlen).prefixed
      · exact (prefixed_takeExact 1).bind fun _ ↦ (Completes.refuse _).prefixed
  | succ k ih =>
      unfold recvLength
      split_ifs
      · exact (Completes.pure rlen).prefixed
      · exact (prefixed_takeExact 1).bind fun byte ↦ ih _ _ _

/-- `recv_packet` decides by the bytes of one frame. -/
theorem recvTicks_prefixed : Prefixed recvTicks := by
  unfold recvTicks recvPacketWith
  refine (prefixed_takeExact 2).bind fun hdr ↦ (recvLength_prefixed _ _ _ _).bind fun rlen ↦ ?_
  split_ifs
  · exact (Completes.refuse _).prefixed
  · exact (prefixed_takeExact rlen).bind fun buf ↦ (Completes.pure _).prefixed
  · exact (Completes.pure _).prefixed

/-- The bytes are exactly one packet, or one header that is refused. -/
abbrev IsFrame (frame : Bytes) (r : Except HeaderError MqttPacket) : Prop :=
  Completes recvTicks frame r

/-- The bytes start no complete packet and no header that is refused. -/
abbrev Incomplete (bs : Bytes) : Prop := Starves recvTicks bs

theorem waits_nil : Waits recvTicks [] := by
  unfold recvTicks recvPacketWith
  exact (waits_takeExact (by simp)).bind

theorem IsFrame.ne_nil {frame : Bytes} {r : Except HeaderError MqttPacket}
    (h : IsFrame frame r) : frame ≠ [] := by
  rintro rfl
  exact h.not_waits waits_nil

theorem incomplete_nil : Incomplete [] := by
  intro pre post h
  obtain ⟨rfl, -⟩ := List.append_eq_nil_iff.mp h.symm
  exact waits_nil

/-! ## One round of the loop -/

variable {env : LoopEnv} {w : Wire} {frame bs : Bytes} {tail : Ticks UInt8} {pkt : MqttPacket}
  {e : HeaderError}

theorem recvPacket_frame {r : Except HeaderError MqttPacket} (h : IsFrame frame r)
    (hw : w.ticks = frame.map some ++ tail) :
    ∃ w', recvPacket w = (r.mapError .refused, w') ∧ w'.ticks = tail := by
  have hsim := recvPacket_simulates w
  rw [hw, h.full] at hsim
  obtain ⟨h₁, h₂⟩ := Prod.mk.inj hsim
  exact ⟨(recvPacket w).2, Prod.ext h₁.symm rfl, h₂.symm⟩

theorem recvPacket_incomplete (h : Incomplete bs) (hw : w.ticks = bs.map some) :
    ∃ w', recvPacket w = (.error .closed, w') ∧ w'.ticks = [] := by
  have hsim := recvPacket_simulates w
  rw [hw, (h bs [] (List.append_nil bs).symm).closed] at hsim
  obtain ⟨h₁, h₂⟩ := Prod.mk.inj hsim
  exact ⟨(recvPacket w).2, Prod.ext h₁.symm rfl, h₂.symm⟩

theorem recvPacket_cut (h : Waits recvTicks bs) (hw : w.ticks = bs.map some ++ none :: tail) :
    ∃ w', recvPacket w = (.error .timeout, w') ∧ w'.ticks = tail := by
  have hsim := recvPacket_simulates w
  rw [hw, h.timeout] at hsim
  obtain ⟨h₁, h₂⟩ := Prod.mk.inj hsim
  exact ⟨(recvPacket w).2, Prod.ext h₁.symm rfl, h₂.symm⟩

variable (env) in
/-- A packet was received. -/
theorem clientLoop_packet (h : IsFrame frame (.ok pkt)) (k : ℕ) (s : LoopState)
    (hw : w.ticks = frame.map some ++ tail) :
    ∃ w', w'.ticks = tail ∧ clientLoop env (k + 1) s w =
      if !pkt.headerOk then ⟨[], []⟩
      else if env.staysOpen (s.dispatched ++ [pkt]) then
        ⟨pkt :: (clientLoop env k (env.afterPacket s pkt) w').dispatched,
          (clientLoop env k (env.afterPacket s pkt) w').lost⟩
      else ⟨[pkt], []⟩ := by
  obtain ⟨w', hrecv, hw'⟩ := recvPacket_frame h hw
  exact ⟨w', hw', by simp [clientLoop, hrecv, Except.mapError]⟩

variable (env) in
/-- A header was refused. -/
theorem clientLoop_refused (h : IsFrame frame (.error e)) (k : ℕ) (s : LoopState)
    (hw : w.ticks = frame.map some ++ tail) :
    ∃ w', w'.ticks = tail ∧ clientLoop env (k + 1) s w =
      if s.again ∧ env.givesUp s = false then clientLoop env k s.afterAgain w' else ⟨[], []⟩ := by
  obtain ⟨w', hrecv, hw'⟩ := recvPacket_frame h hw
  exact ⟨w', hw', by simp [clientLoop, hrecv, Except.mapError]⟩

variable (env) in
/-- The stream ended first. -/
theorem clientLoop_incomplete (h : Incomplete bs) (k : ℕ) (s : LoopState)
    (hw : w.ticks = bs.map some) : clientLoop env k s w = ⟨[], []⟩ := by
  induction k generalizing s w bs with
  | zero => rfl
  | succ k ih =>
      obtain ⟨w', hrecv, hw'⟩ := recvPacket_incomplete h hw
      simp [clientLoop, hrecv, ih incomplete_nil s.afterAgain hw']

variable (env) in
/-- A timeout came first, after the bytes `bs`. -/
theorem clientLoop_cut (h : Waits recvTicks bs) (k : ℕ) (s : LoopState)
    (hw : w.ticks = bs.map some ++ none :: tail) :
    ∃ w', w'.ticks = tail ∧ clientLoop env (k + 1) s w =
      if env.givesUp s then ⟨[], if bs = [] then [] else [bs]⟩
      else ⟨(clientLoop env k s.afterAgain w').dispatched,
        (if bs = [] then [] else [bs]) ++ (clientLoop env k s.afterAgain w').lost⟩ := by
  obtain ⟨w', hrecv, hw'⟩ := recvPacket_cut h hw
  have hdropped : w.bytes.take (w.bytes.length - w'.bytes.length) = bs := by
    have hb : w.bytes = bs ++ w'.bytes := by
      simp [Wire.bytes, hw, hw', List.reduceOption_append, reduceOption_map_some]
    simp [hb]
  refine ⟨w', hw', ?_⟩
  simp only [clientLoop, hrecv, hdropped]
  cases hg : env.givesUp s <;> by_cases hb : bs = [] <;> simp [hb]

/-! ## Harmless timeouts -/

/-- No packet that reaches a handler comes next. -/
def NoPacket (bs : Bytes) : Prop :=
  ∀ frame rest pkt, bs = frame ++ rest → IsFrame frame (.ok pkt) → pkt.headerOk = false

/-- Where the timeouts stand in the stream `l` from a packet boundary on.
Every timeout the loop meets stands between packets; one that ends the loop is
followed by no packet for a handler; and if the loop goes on after a refused
header (`resync`), because an earlier timeout has left `errno` at `EAGAIN`, then
again no packet for a handler follows. -/
inductive Undisturbed (env : LoopEnv) : Bool → LoopState → Ticks UInt8 → Prop
  | incomplete {resync : Bool} {s : LoopState} {bs : Bytes} (h : Incomplete bs) :
      Undisturbed env resync s (bs.map some)
  | timeout {resync : Bool} {s : LoopState} {l : Ticks UInt8} (hgo : env.givesUp s = false)
      (h : Undisturbed env resync s.afterAgain l) : Undisturbed env resync s (none :: l)
  | lastTimeout {resync : Bool} {s : LoopState} {l : Ticks UInt8} (hstop : env.givesUp s = true)
      (h : resync = true ∨ NoPacket l.reduceOption) : Undisturbed env resync s (none :: l)
  | packet {s : LoopState} {frame : Bytes} {pkt : MqttPacket} {l : Ticks UInt8}
      (hf : IsFrame frame (.ok pkt)) (hok : pkt.headerOk = true)
      (hopen : env.staysOpen (s.dispatched ++ [pkt]) = true)
      (h : Undisturbed env false (env.afterPacket s pkt) l) :
      Undisturbed env false s (frame.map some ++ l)
  | lastPacket {s : LoopState} {frame : Bytes} {pkt : MqttPacket} {l : Ticks UInt8}
      (hf : IsFrame frame (.ok pkt)) (hok : pkt.headerOk = true)
      (hclosed : env.staysOpen (s.dispatched ++ [pkt]) = false) :
      Undisturbed env false s (frame.map some ++ l)
  | badPacket {resync : Bool} {s : LoopState} {frame : Bytes} {pkt : MqttPacket}
      {l : Ticks UInt8} (hf : IsFrame frame (.ok pkt)) (hbad : pkt.headerOk = false) :
      Undisturbed env resync s (frame.map some ++ l)
  | refused {resync : Bool} {s : LoopState} {frame : Bytes} {e : HeaderError} {l : Ticks UInt8}
      (hf : IsFrame frame (.error e)) (hstop : s.again = false ∨ env.givesUp s = true) :
      Undisturbed env resync s (frame.map some ++ l)
  | resync {resync : Bool} {s : LoopState} {frame : Bytes} {e : HeaderError} {l : Ticks UInt8}
      (hf : IsFrame frame (.error e)) (hagain : s.again = true) (hgo : env.givesUp s = false)
      (h : Undisturbed env true s.afterAgain l) : Undisturbed env resync s (frame.map some ++ l)

/-- The loop on `w` loses no bytes and dispatches what the loop on `w₀`
dispatches, or nothing after a refused header. -/
def Harmless (env : LoopEnv) (resync : Bool) (k k₀ : ℕ) (s s₀ : LoopState) (w w₀ : Wire) : Prop :=
  (clientLoop env k s w).lost = [] ∧
    (clientLoop env k s w).dispatched =
      if resync then [] else (clientLoop env k₀ s₀ w₀).dispatched

/-- `w₀` and `s₀` are as `w` and `s` without the timeouts. -/
structure Clean (l : Ticks UInt8) (s s₀ : LoopState) (w w₀ : Wire) : Prop where
  ticks : w.ticks = l
  bytes : w₀.ticks = l.reduceOption.map some
  again : s₀.again = false
  dispatched : s₀.dispatched = s.dispatched

variable {s s₀ : LoopState} {w₀ : Wire} {resync : Bool} {k k₀ : ℕ} {l : Ticks UInt8}

theorem Clean.timeout (h : Clean (none :: l) s s₀ w w₀) {w' : Wire} (hw' : w'.ticks = l) :
    Clean l s.afterAgain s₀ w' w₀ :=
  ⟨hw', by simpa using h.bytes, h.again, h.dispatched⟩

theorem Clean.bytes_frame (h : Clean (frame.map some ++ l) s s₀ w w₀) :
    w₀.ticks = frame.map some ++ l.reduceOption.map some := by
  rw [h.bytes, List.reduceOption_append, reduceOption_map_some, List.map_append]

/-- Without timeouts the loop ends where no packet follows. -/
theorem clean_noPacket (hn : NoPacket bs) (hw : w.ticks = bs.map some) (hagain : s.again = false)
    (k : ℕ) : (clientLoop env k s w).dispatched = [] := by
  cases k with
  | zero => rfl
  | succ k =>
      rcases recvTicks_prefixed bs with ⟨frame, rest, r, rfl, hf⟩ | hi
      · rw [List.map_append] at hw
        cases r with
        | ok pkt =>
            obtain ⟨w', -, hrun⟩ := clientLoop_packet env hf k s hw
            simp [hrun, hn frame rest pkt rfl hf]
        | error e =>
            obtain ⟨w', -, hrun⟩ := clientLoop_refused env hf k s hw
            simp [hrun, hagain]
      · rw [clientLoop_incomplete env hi (k + 1) s hw]

theorem noPacket_of_clean (hw : w.ticks = bs.map some)
    (h : (clientLoop env (k + 1) s w).dispatched = []) : NoPacket bs := by
  rintro frame rest pkt rfl hf
  rw [List.map_append] at hw
  obtain ⟨w', -, hrun⟩ := clientLoop_packet env hf k s hw
  rw [hrun] at h
  by_contra hok
  rw [Bool.not_eq_false] at hok
  cases hopen : env.staysOpen (s.dispatched ++ [pkt]) <;> simp [hok, hopen] at h

/-- A frame leaves fewer bytes for the rounds after it. -/
theorem rounds_left {r : Except HeaderError MqttPacket} (hf : IsFrame frame r)
    (hk : (frame.map some ++ l).length < k) : ∃ k', k = k' + 1 ∧ l.length < k' := by
  have hpos := List.length_pos_iff.mpr hf.ne_nil
  rw [List.length_append, List.length_map] at hk
  exact ⟨k - 1, by omega, by omega⟩

theorem rounds_left_bytes {r : Except HeaderError MqttPacket} (hf : IsFrame frame r)
    (hk : (frame.map some ++ l).reduceOption.length < k) :
    ∃ k', k = k' + 1 ∧ l.reduceOption.length < k' := by
  have hpos := List.length_pos_iff.mpr hf.ne_nil
  rw [List.reduceOption_append, reduceOption_map_some, List.length_append] at hk
  exact ⟨k - 1, by omega, by omega⟩

theorem Undisturbed.harmless (h : Undisturbed env resync s l) {w w₀ : Wire}
    {s₀ : LoopState} {k k₀ : ℕ} (hc : Clean l s s₀ w w₀) (hk : l.length < k)
    (hk₀ : l.reduceOption.length < k₀) : Harmless env resync k k₀ s s₀ w w₀ := by
  induction h generalizing w w₀ s₀ k k₀ with
  | @incomplete resync s bs hi =>
      have hw₀ : w₀.ticks = bs.map some := by simpa using hc.bytes
      simp [Harmless, clientLoop_incomplete env hi k s hc.ticks,
        clientLoop_incomplete env hi k₀ s₀ hw₀]
  | @timeout resync s l hgo _ ih =>
      cases k with
      | zero => simp at hk
      | succ k =>
          obtain ⟨w', hw', hrun⟩ := clientLoop_cut env waits_nil k s (by simpa using hc.ticks)
          have hrest := ih (hc.timeout hw') (by simpa using hk) (by simpa using hk₀)
          simpa [Harmless, hrun, hgo] using hrest
  | @lastTimeout resync s l hstop hn =>
      cases k with
      | zero => simp at hk
      | succ k =>
          obtain ⟨w', hw', hrun⟩ := clientLoop_cut env waits_nil k s (by simpa using hc.ticks)
          have hclean : resync = false → (clientLoop env k₀ s₀ w₀).dispatched = [] := by
            rintro rfl
            exact clean_noPacket (hn.resolve_left (by decide)) hc.bytes hc.again k₀
          cases resync <;> simp [Harmless, hrun, hstop, hclean]
  | @packet s frame pkt l hf hok hopen _ ih =>
      obtain ⟨k, rfl, hk'⟩ := rounds_left hf hk
      obtain ⟨k₀, rfl, hk₀'⟩ := rounds_left_bytes hf hk₀
      obtain ⟨w', hw', hrun⟩ := clientLoop_packet env hf k s hc.ticks
      obtain ⟨w₀', hw₀', hrun₀⟩ := clientLoop_packet env hf k₀ s₀ hc.bytes_frame
      have hclean : Clean _ (env.afterPacket s pkt) (env.afterPacket s₀ pkt) w' w₀' :=
        ⟨hw', hw₀', hc.again, by simp [LoopEnv.afterPacket, hc.dispatched]⟩
      have hrest := ih hclean hk' hk₀'
      simpa [Harmless, hrun, hrun₀, hok, hopen, hc.dispatched] using hrest
  | @lastPacket s frame pkt l hf hok hclosed =>
      obtain ⟨k, rfl, -⟩ := rounds_left hf hk
      obtain ⟨k₀, rfl, -⟩ := rounds_left_bytes hf hk₀
      obtain ⟨w', -, hrun⟩ := clientLoop_packet env hf k s hc.ticks
      obtain ⟨w₀', -, hrun₀⟩ := clientLoop_packet env hf k₀ s₀ hc.bytes_frame
      simp [Harmless, hrun, hrun₀, hok, hclosed, hc.dispatched]
  | @badPacket resync s frame pkt l hf hbad =>
      obtain ⟨k, rfl, -⟩ := rounds_left hf hk
      obtain ⟨k₀, rfl, -⟩ := rounds_left_bytes hf hk₀
      obtain ⟨w', -, hrun⟩ := clientLoop_packet env hf k s hc.ticks
      obtain ⟨w₀', -, hrun₀⟩ := clientLoop_packet env hf k₀ s₀ hc.bytes_frame
      simp [Harmless, hrun, hrun₀, hbad]
  | @refused resync s frame e l hf hstop =>
      obtain ⟨k, rfl, -⟩ := rounds_left hf hk
      obtain ⟨k₀, rfl, -⟩ := rounds_left_bytes hf hk₀
      obtain ⟨w', -, hrun⟩ := clientLoop_refused env hf k s hc.ticks
      obtain ⟨w₀', -, hrun₀⟩ := clientLoop_refused env hf k₀ s₀ hc.bytes_frame
      have hend : ¬(s.again = true ∧ env.givesUp s = false) := by
        rcases hstop with h | h <;> simp [h]
      simp [Harmless, hrun, hrun₀, hend, hc.again]
  | @resync resync s frame e l hf hagain hgo _ ih =>
      obtain ⟨k, rfl, hk'⟩ := rounds_left hf hk
      obtain ⟨k₀, rfl, hk₀'⟩ := rounds_left_bytes hf hk₀
      obtain ⟨w', hw', hrun⟩ := clientLoop_refused env hf k s hc.ticks
      obtain ⟨w₀', hw₀', hrun₀⟩ := clientLoop_refused env hf k₀ s₀ hc.bytes_frame
      have hclean : Clean _ s.afterAgain s₀ w' w₀' := ⟨hw', hw₀', hc.again, hc.dispatched⟩
      have hrest := ih hclean hk' hk₀'
      simpa [Harmless, hrun, hrun₀, hagain, hgo, hc.again] using hrest

theorem undisturbed_of_harmless (k k₀ : ℕ) (hc : Clean l s s₀ w w₀) (hk : l.length < k)
    (hk₀ : l.reduceOption.length < k₀) (h : Harmless env resync k k₀ s s₀ w w₀) :
    Undisturbed env resync s l := by
  induction k generalizing resync s s₀ w w₀ l k₀ with
  | zero => simp at hk
  | succ k ih =>
      have hframe : ∀ {frame : Bytes} {r : Except HeaderError MqttPacket} {tail : Ticks UInt8},
          IsFrame frame r → l = frame.map some ++ tail → Undisturbed env resync s l := by
        rintro frame r tail hf rfl
        obtain ⟨k₀, rfl, hk₀'⟩ := rounds_left_bytes hf hk₀
        obtain ⟨k', hkk, hk'⟩ := rounds_left hf hk
        obtain rfl : k = k' := Nat.succ_injective hkk
        cases r with
        | ok pkt =>
            obtain ⟨w', hw', hrun⟩ := clientLoop_packet env hf k s hc.ticks
            obtain ⟨w₀', hw₀', hrun₀⟩ := clientLoop_packet env hf k₀ s₀ hc.bytes_frame
            cases hok : pkt.headerOk with
            | false => exact .badPacket hf hok
            | true =>
                cases hopen : env.staysOpen (s.dispatched ++ [pkt]) <;>
                  simp only [Harmless, hrun, hrun₀, hok, hopen, hc.dispatched] at h <;>
                  cases resync <;> simp at h
                · exact .lastPacket hf hok hopen
                · have hclean : Clean _ (env.afterPacket s pkt) (env.afterPacket s₀ pkt) w' w₀' :=
                    ⟨hw', hw₀', hc.again, by simp [LoopEnv.afterPacket, hc.dispatched]⟩
                  refine .packet hf hok hopen (ih k₀ hclean hk' hk₀' ?_)
                  simpa [Harmless] using h
        | error e =>
            obtain ⟨w', hw', hrun⟩ := clientLoop_refused env hf k s hc.ticks
            obtain ⟨w₀', hw₀', hrun₀⟩ := clientLoop_refused env hf k₀ s₀ hc.bytes_frame
            by_cases hend : s.again = true ∧ env.givesUp s = false
            · have hclean : Clean _ s.afterAgain s₀ w' w₀' :=
                ⟨hw', hw₀', hc.again, hc.dispatched⟩
              refine .resync hf hend.1 hend.2 (ih k₀ hclean hk' hk₀' ?_)
              simpa [Harmless, hrun, hrun₀, hend, hc.again] using h
            · rw [not_and_or, Bool.not_eq_true, Bool.not_eq_false] at hend
              exact .refused hf hend
      rcases ticks_cases l with ⟨bs, rfl⟩ | ⟨bs, tail, rfl⟩
      · rcases recvTicks_prefixed bs with ⟨frame, rest, r, rfl, hf⟩ | hi
        · exact hframe hf (List.map_append ..)
        · exact .incomplete hi
      · rcases recvTicks_prefixed bs with ⟨frame, rest, r, rfl, hf⟩ | hi
        · exact hframe hf (by rw [List.map_append, List.append_assoc])
        · obtain ⟨w', hw', hrun⟩ :=
            clientLoop_cut env (hi bs [] (List.append_nil bs).symm) k s hc.ticks
          -- bytes read before the timeout would be lost
          have hbs : bs = [] := by
            by_contra hne
            cases hg : env.givesUp s <;> simp [Harmless, hrun, hg, hne] at h
          subst hbs
          cases hg : env.givesUp s with
          | true =>
              refine .lastTimeout hg ?_
              cases k₀ with
              | zero => simp at hk₀
              | succ k₀ =>
                  cases resync with
                  | true => exact Or.inl rfl
                  | false =>
                      have hnone : (clientLoop env (k₀ + 1) s₀ w₀).dispatched = [] := by
                        simpa [Harmless, hrun, hg] using h.2.symm
                      exact Or.inr (noPacket_of_clean (by simpa using hc.bytes) hnone)
          | false =>
              refine .timeout hg (ih k₀ (hc.timeout hw') (by simpa using hk)
                (by simpa using hk₀) ?_)
              simpa [Harmless, hrun, hg] using h

theorem Wire.ticks_dropTimeouts (w : Wire) :
    w.dropTimeouts.ticks = w.ticks.reduceOption.map some := by
  induction w with
  | nil => rfl
  | cons a w ih =>
      cases a with
      | timeout => exact ih
      | data b bs =>
          have hkeep : Wire.dropTimeouts (.data b bs :: w) = .data b bs :: Wire.dropTimeouts w :=
            rfl
          simp [hkeep, ticks, ih, List.reduceOption_append]

/-- The timeouts change the packets given to the handlers in no way, however the
same bytes are split into chunks, and lose no bytes, if and only if they stand as
`Undisturbed` says. -/
theorem timeouts_harmless_iff (env : LoopEnv) (w : Wire) :
    (∀ w₀ : Wire, w₀.ticks = w.bytes.map some →
        (clientRun env w).dispatched = (clientRun env w₀).dispatched) ∧
      (clientRun env w).lost = [] ↔ Undisturbed env false .start w.ticks := by
  have hk := Nat.lt_succ_self w.ticks.length
  have hclean : ∀ w₀ : Wire, w₀.ticks = w.bytes.map some →
      Clean w.ticks .start .start w w₀ ∧ w.ticks.reduceOption.length < w₀.ticks.length + 1 :=
    fun w₀ hw₀ ↦ ⟨⟨rfl, hw₀, rfl, rfl⟩, by simp [hw₀, Wire.bytes]⟩
  constructor
  · rintro ⟨hd, hl⟩
    obtain ⟨hc, hk₀⟩ := hclean w.dropTimeouts w.ticks_dropTimeouts
    have hsame := hd w.dropTimeouts w.ticks_dropTimeouts
    exact undisturbed_of_harmless _ _ hc hk hk₀ ⟨hl, by simpa [clientRun] using hsame⟩
  · intro h
    refine ⟨fun w₀ hw₀ ↦ ?_, ?_⟩
    · obtain ⟨hc, hk₀⟩ := hclean w₀ hw₀
      simpa [clientRun] using (h.harmless hc hk hk₀).2
    · obtain ⟨hc, hk₀⟩ := hclean w.dropTimeouts w.ticks_dropTimeouts
      exact (h.harmless hc hk hk₀).1

/-- No keepalive, and everything else goes well. -/
def quietEnv : LoopEnv := ⟨0, fun _ ↦ 0, fun _ ↦ true, fun _ ↦ true⟩

/-- Two PINGREQ packets and a timeout inside the first: its first byte is lost,
and the rest is read as a packet of a reserved type. -/
theorem timeout_inside_packet :
    let w : Wire := [.data 0xC0 [], .timeout, .data 0x00 [0xC0, 0x00]]
    clientRun quietEnv w = ⟨[], [[0xC0]]⟩ ∧
      clientRun quietEnv w.dropTimeouts = ⟨[⟨0xC0, 0, []⟩, ⟨0xC0, 0, []⟩], []⟩ := by
  decide

end MqttBroker
