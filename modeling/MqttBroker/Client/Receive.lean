import MqttBroker.Client.Dispatch
import MqttBroker.Lib.TickReader

/-!
# Receiving packets

`recv_exact`, `recv_packet` and the receive loop of `client_thread_fn`, on a
transport that delivers the client's bytes in chunks with timeouts of
`SO_RCVTIMEO` between them.
-/

namespace MqttBroker

open TickReader

/-! ## The transport -/

/-- What `plat_recv` meets next: a chunk of bytes, or the end of a tick. -/
inductive Arrival where
  | data (first : UInt8) (more : Bytes)
  | timeout
  deriving DecidableEq, Repr

/-- What is still to come from the client, who then closes. -/
abbrev Wire := List Arrival

namespace Wire

/-- The single bytes, and `none` for a timeout. -/
def ticks : Wire → Ticks UInt8
  | [] => []
  | .data b bs :: w => some b :: (bs.map some ++ ticks w)
  | .timeout :: w => none :: ticks w

/-- The bytes alone. -/
def bytes (w : Wire) : Bytes := w.ticks.reduceOption

/-- The same bytes in the same chunks, without the timeouts. -/
def dropTimeouts (w : Wire) : Wire := w.filter (· ≠ .timeout)

/-- Put back what a `plat_recv` left of a chunk. -/
def pushChunk : Bytes → Wire → Wire
  | [], w => w
  | b :: bs, w => .data b bs :: w

end Wire

/-! ## Reading one packet -/

/-- A reason of `recv_packet` to refuse a fixed header; it sets no `errno`. -/
inductive HeaderError where
  | malformedLength
  | tooLarge
  deriving DecidableEq, Repr

/-- `recv_exact`.  A `plat_recv` returns what it finds of the next chunk, so the
loop goes on to the next chunk when the chunk is too short; on a timeout, and
when the client has closed, the bytes read so far are lost. -/
def recvExact : ℕ → Reader Wire HeaderError Bytes
  | 0, w => (.ok [], w)
  | _ + 1, [] => (.error .closed, [])
  | _ + 1, .timeout :: w => (.error .timeout, w)
  | n + 1, .data b bs :: w =>
      if n < bs.length then (.ok (b :: bs.take n), Wire.pushChunk (bs.drop n) w)
      else
        let r := recvExact (n - bs.length) w
        (r.1.map (b :: bs ++ ·), r.2)
  termination_by structural _ w => w

section

variable {ω : Type} (recv : ℕ → Reader ω HeaderError Bytes)

/-- The loop of `recv_packet` over further length bytes, with `k` more of them
allowed before `multiplier` exceeds its bound. -/
def recvLength : ℕ → UInt8 → ℕ → ℕ → Reader ω HeaderError ℕ
  | 0, last, rlen, _ =>
      if last &&& 0x80 = 0 then pure rlen
      else do
        let _ ← recv 1
        Reader.stop (.refused .malformedLength)
  | k + 1, last, rlen, multiplier =>
      if last &&& 0x80 = 0 then pure rlen
      else do
        let byte ← recv 1
        recvLength k (byte.headD 0) (rlen + (byte.headD 0 &&& 0x7F).toNat * multiplier)
          (multiplier * 128)

/-- `recv_packet` with the given `recv_exact`. -/
def recvPacketWith : Reader ω HeaderError MqttPacket := do
  let hdr ← recv 2
  let typeFlags := hdr.headD 0
  let first := hdr.tail.headD 0
  let rlen ← recvLength recv 2 first (first &&& 0x7F).toNat 128
  if MQTT_MAX_PACKET_SIZE < rlen then Reader.stop (.refused .tooLarge)
  else if 0 < rlen then do
    let buf ← recv rlen
    pure ⟨typeFlags, rlen, buf⟩
  else pure ⟨typeFlags, rlen, []⟩

end

/-- `recv_packet`. -/
def recvPacket : Reader Wire HeaderError MqttPacket := recvPacketWith recvExact

/-! ## The loop -/

/-- What the loop of `client_thread_fn` meets besides the received bytes. -/
structure LoopEnv where
  /-- `c->keepalive`, in seconds -/
  keepalive : ℕ
  /-- `plat_uptime_ms()` in the loop's `i`-th round -/
  now : ℕ → ℤ
  /-- whether the sends of `client_inflight_retry` in the `i`-th round succeed -/
  retryOk : ℕ → Bool
  /-- whether the connection is still open once the handlers have been given
  these packets -/
  staysOpen : List MqttPacket → Bool

/-- The loop's own variables. -/
structure LoopState where
  round : ℕ
  /-- `errno` is left at `EAGAIN` by an earlier `plat_recv` -/
  again : Bool
  lastSeenMs : ℤ
  /-- the packets given to the handlers so far -/
  dispatched : List MqttPacket

/-- At the start of the loop `errno` is 0 and `last_seen_ms` as `client_alloc`
left it. -/
def LoopState.start : LoopState := ⟨0, false, 0, []⟩

/-- The state after a receive error that the loop takes for a timeout. -/
def LoopState.afterAgain (s : LoopState) : LoopState :=
  { s with round := s.round + 1, again := true }

/-- What a run of the loop does: the packets it gives to the handlers, and the
bytes it has read and dropped because of a timeout. -/
structure LoopLog where
  dispatched : List MqttPacket
  lost : List Bytes
  deriving DecidableEq

namespace LoopEnv

variable (env : LoopEnv)

/-- The branch for `EAGAIN` ends the loop: the keepalive time has passed, or a
retransmission fails. -/
def givesUp (s : LoopState) : Bool :=
  (0 < env.keepalive && (env.keepalive : ℤ) * 1500 < env.now s.round - s.lastSeenMs) ||
    !env.retryOk s.round

/-- The state after a packet was given to its handler. -/
def afterPacket (s : LoopState) (pkt : MqttPacket) : LoopState :=
  { s with
    round := s.round + 1
    lastSeenMs := env.now s.round
    dispatched := s.dispatched ++ [pkt] }

end LoopEnv

/-- At most `k` rounds of the loop of `client_thread_fn`. -/
def clientLoop (env : LoopEnv) : ℕ → LoopState → Wire → LoopLog
  | 0, _, _ => ⟨[], []⟩
  | k + 1, s, w =>
      let (result, w') := recvPacket w
      match result with
      | .ok pkt =>
          if !pkt.headerOk then ⟨[], []⟩
          else if env.staysOpen (s.dispatched ++ [pkt]) then
            let log := clientLoop env k (env.afterPacket s pkt) w'
            { log with dispatched := pkt :: log.dispatched }
          else ⟨[pkt], []⟩
      | .error e =>
          let dropped := w.bytes.take (w.bytes.length - w'.bytes.length)
          let lost := if e = .timeout ∧ dropped ≠ [] then [dropped] else []
          -- `errno` is `EAGAIN` now, or still
          if (e = .timeout ∨ s.again) ∧ !env.givesUp s then
            let log := clientLoop env k s.afterAgain w'
            { log with lost := lost ++ log.lost }
          else ⟨[], lost⟩

/-- The loop on everything the client sends.  Each round but those after the
end of the stream reads something, so these rounds are enough. -/
def clientRun (env : LoopEnv) (w : Wire) : LoopLog :=
  clientLoop env (w.ticks.length + 1) .start w

end MqttBroker
