import XferRust.Lib.SortedMap
import XferRust.Utp.Packet

/-! # A uTP connection

The state machine of `utp_connection.rs`: handshake, data, acknowledgements, FIN, timers and
the congestion window, driven by `handlePacket` and `processTick` and by the stream API
`write` / `read` / `close`.

Instants and durations are nanoseconds.  What a call reads from outside the connection is an
`Env`: the monotonic clock, the wall clock in microseconds, and the floating-point product of
`update_window`, which stays an arbitrary function.  Integer arithmetic wraps, as in the
release build.  The remote address is not modelled: the connection only hands it out.
-/
namespace XferRust.Utp

/-- `DEFAULT_PACKET_SIZE`. -/
def defaultPacketSize : UInt32 := 1400
/-- `MIN_PACKET_SIZE`. -/
def minPacketSize : UInt32 := 150
/-- `INITIAL_CWND_PACKETS`. -/
def initialCwndPackets : UInt32 := 10
/-- `RECV_WINDOW`. -/
def recvWindow : UInt32 := 8 * 1024 * 1024
/-- `REORDER_WINDOW`. -/
def reorderWindow : UInt32 := 1024 * 1024
/-- `CC_TARGET_US`. -/
def ccTargetUs : UInt32 := 100000
/-- `BASE_DELAY_WINDOW`, in nanoseconds. -/
def baseDelayWindow : Nat := 120000000000
/-- `RTO_MIN`, in nanoseconds. -/
def rtoMin : Nat := 500000000
/-- `RTO_MAX`, in nanoseconds. -/
def rtoMax : Nat := 60000000000
/-- `MAX_PENDING_SEND`. -/
def maxPendingSend : Nat := 1024 * 1024

/-- `UtpState`. -/
inductive UtpState
  | synSent
  | synRecv
  | connected
  | finSent
  | closed
  deriving DecidableEq

/-- A DATA packet in flight. -/
structure OutPacket where
  payload : List UInt8
  seq : UInt16
  sendTime : Nat
  size : UInt32
  retransmits : UInt32

/-- A DATA packet that arrived ahead of its turn. -/
structure InPacket where
  payload : List UInt8

/-- What a call reads from outside the connection. -/
structure Env where
  /-- `Instant::now()`. -/
  now : Nat
  /-- `now_micros()`. -/
  micros : UInt32
  /-- The `f64` product of `update_window` cast to `i64`, from `off_target`, `packet_size`,
  the bytes newly acknowledged and the larger of window and packet size. -/
  ledbat : UInt32 → UInt32 → UInt32 → UInt32 → Int

/-- `UtpConnection`. -/
structure UtpConnection where
  recvId : UInt16
  sendId : UInt16
  state : UtpState
  error : Bool
  /-- The next sequence number to use; DATA consumes it, STATE and FIN do not. -/
  seq : UInt16
  synSeq : UInt16
  /-- The last sequence number received in order. -/
  ack : UInt16
  synAcked : Bool
  pendingSend : List UInt8
  sendQueue : List OutPacket
  curWindow : UInt32
  maxWindow : UInt32
  packetSize : UInt32
  peerWnd : UInt32
  wantWrite : Bool
  ackPending : Bool
  finSent : Bool
  finPending : Bool
  finAcked : Bool
  finSeq : UInt16
  synAttempts : Nat
  recvOut : List UInt8
  recvReorder : SortedMap UInt16 InPacket
  recvBuffered : UInt32
  eof : Bool
  eofPkt : UInt16
  wantRead : Bool
  rtt : Nat
  rttVar : Nat
  timeout : Nat
  lastRecv : Option Nat
  lastSend : Option Nat
  consecutiveTimeouts : Nat
  baseDelay : Option Nat
  baseDelaySet : Option Nat
  lastDelaySample : Nat
  lastAckNr : UInt16
  dupAckCount : Nat
  lastFastRecoverySeq : UInt16
  fastRecoveryValid : Bool
  tsDiffEcho : UInt32
  outbox : List (List UInt8)

namespace UtpConnection

/-! ## Observers -/

/-- `eof_received`. -/
def eofReceived (s : UtpConnection) : Bool :=
  s.eof && s.recvOut.isEmpty && s.recvReorder.isEmpty

/-- `is_closed`. -/
def isClosed (s : UtpConnection) : Bool := s.state = .closed

/-- `has_error`. -/
def hasError (s : UtpConnection) : Bool := s.error

/-- `can_send_data`. -/
def canSendData (s : UtpConnection) : Bool :=
  s.curWindow + s.packetSize ≤ min s.maxWindow s.peerWnd

/-- `advertised_wnd`. -/
def advertisedWnd (s : UtpConnection) : UInt32 :=
  let used := s.recvBuffered + UInt32.ofNat s.recvOut.length
  if used ≤ recvWindow then recvWindow - used else 0

/-! ## Outgoing packets -/

/-- The bytes of a DATA packet with the acknowledgement fields of the moment. -/
def dataPacket (s : UtpConnection) (env : Env) (seq : UInt16) (payload : List UInt8) :
    List UInt8 :=
  encodeHeader
    { type_ := stData
      version := protocolVersion
      extension := extNone
      connectionId := s.sendId
      timestamp := env.micros
      timestampDiff := s.tsDiffEcho
      wndSize := s.advertisedWnd
      seqNr := seq
      ackNr := s.ack } ++ payload

/-- `queue_data_packet`. -/
def queueDataPacket (s : UtpConnection) (op : OutPacket) (env : Env) : UtpConnection :=
  let s := { s with curWindow := s.curWindow + op.size }
  { s with
    outbox := s.outbox ++ [s.dataPacket env op.seq op.payload]
    lastSend := some env.now
    sendQueue := s.sendQueue ++ [op] }

/-- The SACK bitmap of the reorder buffer: bit `i` stands for `ack + 2 + i`. -/
def sackBits (s : UtpConnection) : UInt32 :=
  s.recvReorder.keys.foldl
    (fun bits k =>
      let off := k - (s.ack + 2)
      if off < 32 then bits ||| ((1 : UInt32) <<< off.toUInt32) else bits) 0

/-- The header of a control packet.  SYN carries the receive id and its own sequence number,
FIN the frozen one; everything else carries the next sequence number without using it. -/
def controlHeader (s : UtpConnection) (type_ : UInt8) (env : Env) (seqForAck : UInt16) :
    PacketHeader :=
  { type_ := type_
    version := protocolVersion
    extension := if s.recvReorder.isEmpty then extNone else extSack
    connectionId := if type_ = stSyn then s.recvId else s.sendId
    timestamp := env.micros
    timestampDiff := s.tsDiffEcho
    wndSize := if type_ = stSyn then 0 else s.advertisedWnd
    seqNr := if type_ = stSyn then s.synSeq else if type_ = stFin then s.finSeq else s.seq
    ackNr := if seqForAck = 0 then s.ack else seqForAck }

/-- The bytes `queue_control` sends. -/
def controlPacket (s : UtpConnection) (type_ : UInt8) (env : Env) (seqForAck : UInt16) :
    List UInt8 :=
  encodeHeader (s.controlHeader type_ env seqForAck) ++
    if s.recvReorder.isEmpty then [] else encodeSack s.sackBits

/-- `queue_control`. -/
def queueControl (s : UtpConnection) (type_ : UInt8) (env : Env) (seqForAck : UInt16) :
    UtpConnection :=
  { s with
    outbox := s.outbox ++ [s.controlPacket type_ env seqForAck]
    lastSend := some env.now }

/-- `send_ack`. -/
def sendAck (s : UtpConnection) (env : Env) : UtpConnection :=
  { s.queueControl stState env 0 with ackPending := false }

/-- `retransmit_packet_clone`. -/
def retransmitPacketClone (s : UtpConnection) (p : OutPacket) (env : Env) : UtpConnection :=
  { s with
    outbox := s.outbox ++ [s.dataPacket env p.seq p.payload]
    lastSend := some env.now }

/-- `retransmit_unacked`. -/
def retransmitUnacked (s : UtpConnection) (env : Env) : UtpConnection :=
  { s with
    sendQueue := s.sendQueue.map fun p =>
      { p with sendTime := env.now, retransmits := p.retransmits + 1 }
    outbox := s.outbox ++ s.sendQueue.map fun p => s.dataPacket env p.seq p.payload }

/-! ## Construction -/

/-- What `new_outbound` and `new_inbound` have in common. -/
def new (recvId sendId : UInt16) (state : UtpState) (seq synSeq ack : UInt16)
    (lastRecv : Option Nat) (env : Env) : UtpConnection :=
  { recvId, sendId, state, error := false, seq, synSeq, ack, synAcked := false
    pendingSend := [], sendQueue := [], curWindow := 0
    maxWindow := defaultPacketSize * initialCwndPackets, packetSize := defaultPacketSize
    peerWnd := 0x7FFFFFFF, wantWrite := false, ackPending := false
    finSent := false, finPending := false, finAcked := false, finSeq := 0, synAttempts := 0
    recvOut := [], recvReorder := .empty, recvBuffered := 0, eof := false, eofPkt := 0
    wantRead := false, rtt := 0, rttVar := 0, timeout := 1000000000
    lastRecv, lastSend := some env.now, consecutiveTimeouts := 0
    baseDelay := none, baseDelaySet := none, lastDelaySample := 0, lastAckNr := 0
    dupAckCount := 0, lastFastRecoverySeq := 0, fastRecoveryValid := false
    tsDiffEcho := 0, outbox := [] }

/-- `new_outbound`; `idBytes` are the random bytes the receive id is made of. -/
def newOutbound (idBytes : UInt16) (env : Env) : UtpConnection :=
  let recvId := idBytes &&& 0xFFFE
  (new recvId (recvId + 1) .synSent 2 1 0 none env).queueControl stSyn env 0

/-- `new_inbound`; `seqBytes` are the random bytes the first sequence number is made of. -/
def newInbound (peerRecvId ackNr seqBytes : UInt16) (env : Env) : UtpConnection :=
  (new (peerRecvId + 1) peerRecvId .synRecv seqBytes 0 ackNr (some env.now) env).queueControl
    stState env 0

/-! ## Stream API -/

/-- `write`: the connection and the number of bytes it accepted. -/
def write (s : UtpConnection) (data : List UInt8) : UtpConnection × Nat :=
  let s := { s with wantWrite := false }
  if s.state = .closed ∨ s.error then (s, 0)
  else
    let room := maxPendingSend - s.pendingSend.length
    let accepted := min room data.length
    ({ s with
        pendingSend := s.pendingSend ++ data.take accepted
        wantWrite := accepted < data.length }, accepted)

/-- `read` into a buffer of `len` bytes: the connection and the bytes it handed out. -/
def read (s : UtpConnection) (len : Nat) : UtpConnection × List UInt8 :=
  let s := { s with wantRead := false }
  let n := min len s.recvOut.length
  let out := s.recvOut.take n
  let s := { s with recvOut := s.recvOut.drop n }
  ({ s with
      wantRead := n = 0 ∧ s.recvOut.isEmpty ∧ !s.eofReceived ∧ !s.isClosed ∧ !s.hasError }, out)

/-- `close`. -/
def close (s : UtpConnection) : UtpConnection :=
  if s.finPending ∨ s.finSent ∨ s.state = .closed then s
  else if s.state = .synSent then { s with state := .closed }
  else { s with finPending := true }

/-- `drain_outbox`. -/
def drainOutbox (s : UtpConnection) : UtpConnection × List (List UInt8) :=
  ({ s with outbox := [] }, s.outbox)

/-- `finish_close_if_idle`. -/
def finishCloseIfIdle (s : UtpConnection) : UtpConnection :=
  if s.finSent ∧ s.finAcked ∧ s.eofReceived then { s with state := .closed } else s

/-! ## Round-trip time, delay and window -/

/-- `update_rtt`. -/
def updateRtt (s : UtpConnection) (packetRtt : Nat) : UtpConnection :=
  if packetRtt = 0 ∨ packetRtt > rtoMax then s
  else
    let s :=
      if s.rtt = 0 then { s with rtt := packetRtt, rttVar := packetRtt / 2 }
      else
        let delta : Int := Int.natAbs (s.rtt - packetRtt : Int)
        let newVar := (s.rttVar : Int) + (delta - s.rttVar).tdiv 4
        let newRtt := (s.rtt : Int) + ((packetRtt : Int) - s.rtt).tdiv 8
        { s with rtt := newRtt.toNat, rttVar := newVar.toNat }
    { s with timeout := min (max (s.rtt + s.rttVar * 4) rtoMin) rtoMax }

/-- `update_delay`. -/
def updateDelay (s : UtpConnection) (sampleUs : UInt32) (env : Env) : UtpConnection :=
  let sample := sampleUs.toNat * 1000
  let s := { s with lastDelaySample := sample }
  let needReset :=
    (match s.baseDelay with | none => true | some b => sample < b) ||
      (match s.baseDelaySet with | none => false | some t => env.now - t > baseDelayWindow)
  if needReset then { s with baseDelay := some sample, baseDelaySet := some env.now } else s

/-- `update_window`. -/
def updateWindow (s : UtpConnection) (newlyAcked : UInt32) (env : Env) : UtpConnection :=
  let ourDelay :=
    match s.baseDelay with
    | some b => if s.lastDelaySample > b then s.lastDelaySample - b else 0
    | none => 0
  let ourDelayUs := UInt32.ofNat (ourDelay / 1000)
  let offTarget := if ourDelayUs ≤ ccTargetUs then ccTargetUs - ourDelayUs else 0
  let delta := env.ledbat offTarget s.packetSize newlyAcked (max s.maxWindow s.packetSize)
  let delta := if s.baseDelay.isNone then delta + s.packetSize.toNat else delta
  let newWindow := (s.maxWindow.toNat : Int) + delta
  { s with maxWindow := UInt32.ofInt (max newWindow s.packetSize.toNat) }

/-! ## Acknowledgements -/

/-- The duplicate-ack counter of `on_ack`. -/
def noteDupAck (s : UtpConnection) (ackNr : UInt16) : UtpConnection :=
  if ackNr = s.lastAckNr then { s with dupAckCount := s.dupAckCount + 1 }
  else { s with lastAckNr := ackNr, dupAckCount := 0 }

/-- What the loop of `on_ack` over the send queue leaves behind. -/
structure Acked where
  /-- The packets still unacknowledged. -/
  queue : List OutPacket
  freed : UInt32
  rttSample : Option Nat
  finAcked : Bool

/-- The loop of `on_ack` over the send queue: acknowledged packets leave at the front. -/
def dropAcked (finSent : Bool) (finSeq ackNr : UInt16) (now : Nat) (acc : Acked) : Acked :=
  go acc.queue acc.freed acc.rttSample acc.finAcked
where
  go : List OutPacket → UInt32 → Option Nat → Bool → Acked
    | [], freed, sample, fin => ⟨[], freed, sample, fin⟩
    | p :: ps, freed, sample, fin =>
      if seqLeq p.seq ackNr then
        go ps (freed + p.size)
          (if sample.isNone ∧ p.retransmits = 0 then some (now - p.sendTime) else sample)
          (fin || (p.seq = finSeq && finSent))
      else ⟨p :: ps, freed, sample, fin⟩

/-- `on_ack`, freed bytes leave the window; a collapsed packet size recovers. -/
def releaseWindow (s : UtpConnection) (freed : UInt32) : UtpConnection :=
  { s with
    curWindow := if freed ≤ s.curWindow then s.curWindow - freed else 0
    packetSize := if s.packetSize < defaultPacketSize then defaultPacketSize else s.packetSize }

/-- `on_ack`, what follows from freed bytes: window, timeout and congestion window. -/
def creditFreed (s : UtpConnection) (freed : UInt32) (rttSample : Option Nat) (env : Env) :
    UtpConnection :=
  let s := s.releaseWindow freed
  let s := rttSample.elim s s.updateRtt
  { s.updateWindow freed env with wantWrite := true }

/-- `on_ack`, first part: acknowledged packets leave the send queue and the window moves. -/
def onAckQueue (s : UtpConnection) (ackNr : UInt16) (env : Env) : UtpConnection :=
  let r := dropAcked s.finSent s.finSeq ackNr env.now ⟨s.sendQueue, 0, none, s.finAcked⟩
  let s := { s with sendQueue := r.queue, finAcked := r.finAcked }
  if r.freed > 0 then s.creditFreed r.freed r.rttSample env else s

/-- `on_ack`, the acknowledgement of a FIN, which is not in the send queue. -/
def onAckFin (s : UtpConnection) (ackNr : UInt16) : UtpConnection :=
  if s.finSent ∧ !s.finAcked ∧ seqLeq s.finSeq ackNr then { s with finAcked := true } else s

/-- The number of set SACK bits whose sequence number lies after `oldest`. -/
def sacksAfter (ackNr oldest : UInt16) (sackBits : UInt32) : Nat :=
  (List.range 32).countP fun bit =>
    sackBits &&& ((1 : UInt32) <<< UInt32.ofNat bit) ≠ 0 ∧
      seqAfter (ackNr + (2 + UInt16.ofNat bit)) oldest

/-- `on_ack`, SACK fast retransmit of the oldest unacknowledged packet. -/
def onAckSack (s : UtpConnection) (ackNr : UInt16) (sackBits : UInt32) (env : Env) :
    UtpConnection :=
  match s.sendQueue with
  | [] => s
  | front :: _ =>
    if seqAfter front.seq ackNr ∧ sacksAfter ackNr front.seq sackBits ≥ 3 ∧
        ¬ (s.fastRecoveryValid ∧ s.lastFastRecoverySeq = front.seq) then
      { s.retransmitPacketClone front env with
        maxWindow := max (s.maxWindow / 2) s.packetSize
        lastFastRecoverySeq := front.seq
        fastRecoveryValid := true }
    else s

/-- The first packet of a queue with sequence number `target`, marked as sent again. -/
def markRetransmit (target : UInt16) (now : Nat) : List OutPacket → List OutPacket
  | [] => []
  | p :: ps =>
    if p.seq = target then { p with retransmits := p.retransmits + 1, sendTime := now } :: ps
    else p :: markRetransmit target now ps

/-- The fast retransmit of a packet `p` with sequence number `target`. -/
def fastRetransmit (s : UtpConnection) (p : OutPacket) (target : UInt16) (env : Env) :
    UtpConnection :=
  { s.retransmitPacketClone p env with
    sendQueue := markRetransmit target env.now s.sendQueue
    maxWindow := max (s.maxWindow / 2) s.packetSize
    lastFastRecoverySeq := target
    fastRecoveryValid := true }

/-- The packet after the acknowledged one is sent again, unless it was already. -/
def recoverTarget (s : UtpConnection) (target : UInt16) (env : Env) : UtpConnection :=
  match s.sendQueue.find? fun p => p.seq = target with
  | none => s
  | some p =>
    if s.fastRecoveryValid ∧ s.lastFastRecoverySeq = target then s
    else s.fastRetransmit p target env

/-- `on_ack`, fast retransmit of `ack_nr + 1` after three duplicate acks. -/
def onAckDup (s : UtpConnection) (ackNr : UInt16) (env : Env) : UtpConnection :=
  if s.dupAckCount ≥ 3 then { s.recoverTarget (ackNr + 1) env with dupAckCount := 0 } else s

/-- `on_ack`. -/
def onAck (s : UtpConnection) (ackNr : UInt16) (sackBits : UInt32) (env : Env) : UtpConnection :=
  if s.state = .synSent ∧ !s.synAcked then s
  else
    let s := (s.noteDupAck ackNr).onAckQueue ackNr env
    let s := ((s.onAckFin ackNr).onAckSack ackNr sackBits env).onAckDup ackNr env
    if s.finSent ∧ s.finAcked then s.finishCloseIfIdle else s

/-! ## Packet reception -/

/-- The loop of `on_data` that empties the reorder buffer: while the entry of the least key
carries the next sequence number, it is delivered.  The result is the last sequence number
received in order, the stream so far, the bytes that stay buffered and the number of entries
delivered. -/
def drainReorder (ack : UInt16) (out : List UInt8) (buffered : UInt32) :
    List (UInt16 × InPacket) → UInt16 × List UInt8 × UInt32 × Nat
  | [] => (ack, out, buffered, 0)
  | (nextSeq, p) :: es =>
    if nextSeq = ack + 1 then
      let r := drainReorder nextSeq (out ++ p.payload)
        (buffered - UInt32.ofNat p.payload.length) es
      (r.1, r.2.1, r.2.2.1, r.2.2.2 + 1)
    else (ack, out, buffered, 0)

/-- `on_data`. -/
def onData (s : UtpConnection) (hdr : PacketHeader) (payload : List UInt8) : UtpConnection :=
  let seq := hdr.seqNr
  let s := { s with ackPending := true }
  if payload.isEmpty then s
  else if seqLeq seq s.ack then s
  else if seq = s.ack + 1 then
    let r := drainReorder seq (s.recvOut ++ payload) s.recvBuffered s.recvReorder.entries
    { s with
      ack := r.1
      recvOut := r.2.1
      recvBuffered := r.2.2.1
      recvReorder := s.recvReorder.dropFirst r.2.2.2
      wantRead := true }
  else if s.recvBuffered + UInt32.ofNat payload.length ≤ reorderWindow then
    let buffered :=
      match s.recvReorder.find? seq with
      | some dup => s.recvBuffered - UInt32.ofNat dup.payload.length
      | none => s.recvBuffered
    { s with
      recvReorder := (s.recvReorder.erase seq).insert seq ⟨payload⟩
      recvBuffered := buffered + UInt32.ofNat payload.length
      wantRead := true }
  else { s with wantRead := true }

/-- The FIN arm of `handle_packet`. -/
def onFin (s : UtpConnection) (hdr : PacketHeader) : UtpConnection :=
  let s :=
    if hdr.seqNr = s.ack + 1 ∧ !s.eof then
      { s with ack := hdr.seqNr, eof := true, eofPkt := hdr.seqNr }
    else s
  { s with ackPending := true }

/-- The SACK bitmap among the extensions; the last one counts. -/
def sackOf (exts : List Extension) : UInt32 :=
  exts.foldl (fun bits e => if e.1 = extSack then decodeSackBits e.2 else bits) 0

/-- `handle_packet`, bookkeeping of clock and peer window. -/
def onArrival (s : UtpConnection) (hdr : PacketHeader) (env : Env) : UtpConnection :=
  let tsDiff := env.micros - hdr.timestamp
  let s := { s with
    lastRecv := some env.now
    consecutiveTimeouts := 0
    tsDiffEcho := tsDiff
    peerWnd := hdr.wndSize }
  if hdr.type_ = stSyn then s else s.updateDelay tsDiff env

/-- The handshake step a DATA or FIN packet makes on the side that still waits. -/
def onFirstData (s : UtpConnection) (hdr : PacketHeader) : UtpConnection :=
  if s.state = .synRecv then { s with state := .connected }
  else if s.state = .synSent then
    { s with ack := hdr.seqNr, synAcked := true, state := .connected }
  else s

/-- The handshake step of the answer to a SYN.  It carries the number the peer uses next, so
everything before that number counts as acknowledged. -/
def onSynAck (s : UtpConnection) (hdr : PacketHeader) : UtpConnection :=
  if s.state = .synSent then
    { s with ack := hdr.seqNr - 1, synAcked := true, state := .connected }
  else s

/-- `handle_packet` after parsing, up to the pending acknowledgement. -/
def handleParsed (s : UtpConnection) (hdr : PacketHeader) (exts : List Extension)
    (payload : List UInt8) (env : Env) : UtpConnection :=
  let s := s.onArrival hdr env
  let sack := sackOf exts
  if hdr.type_ = stSyn then
    if s.state = .synRecv ∨ s.state = .connected then s.queueControl stState env 0 else s
  else if hdr.type_ = stState then
    (s.onSynAck hdr).onAck hdr.ackNr sack env
  else if hdr.type_ = stData then
    ((s.onFirstData hdr).onData hdr payload).onAck hdr.ackNr sack env
  else if hdr.type_ = stFin then
    ((s.onFirstData hdr).onFin hdr).onAck hdr.ackNr sack env
  else s

/-- `handle_packet`. -/
def handlePacket (s : UtpConnection) (data : List UInt8) (env : Env) : UtpConnection :=
  match parsePacket data with
  | none => s
  | some (hdr, exts, off) =>
    if hdr.type_ = stReset then
      { s.onArrival hdr env with error := true, state := .closed }
    else
      let s := s.handleParsed hdr exts (data.drop off) env
      if s.ackPending then s.sendAck env else s

/-! ## Timers -/

/-- The connection gives up. -/
def giveUp (s : UtpConnection) : UtpConnection := { s with error := true, state := .closed }

/-- The backed-off retransmission timeout. -/
def backoff (timeout : Nat) : Nat := min (timeout * 2) rtoMax

/-- `handle_timeout` while the SYN is unanswered. -/
def synTimeout (s : UtpConnection) (env : Env) : UtpConnection :=
  let s := { s with synAttempts := s.synAttempts + 1, timeout := backoff s.timeout }
  if s.synAttempts ≥ 4 then s.giveUp
  else { s.queueControl stSyn env 0 with lastSend := some env.now }

/-- `handle_timeout`, the window falls back to one small packet. -/
def collapseWindow (s : UtpConnection) (env : Env) : UtpConnection :=
  { s with
    packetSize := minPacketSize
    maxWindow := minPacketSize
    lastRecv := some env.now }

/-- `handle_timeout`. -/
def handleTimeout (s : UtpConnection) (env : Env) : UtpConnection :=
  if s.state = .synSent then s.synTimeout env
  else
    let s := { s with
      consecutiveTimeouts := s.consecutiveTimeouts + 1
      timeout := backoff s.timeout }
    if s.consecutiveTimeouts ≥ 5 then s.giveUp
    else
      let s := (s.collapseWindow env).retransmitUnacked env
      if s.finSent ∧ !s.finAcked ∧ s.state = .finSent then s.queueControl stFin env 0 else s

/-- The FIN step of `process_tick`: a pending FIN takes the next sequence number without
using it up.  The flag tells that the call returns here. -/
def flushFin (s : UtpConnection) (env : Env) : UtpConnection × Bool :=
  if s.finPending then
    let s := { s with finPending := false, finSent := true, finSeq := s.seq }
    if s.state = .synSent then ({ s with state := .closed }, true)
    else ({ s with state := .finSent }.queueControl stFin env 0, false)
  else (s, false)

/-- Whether the retransmission timer of `process_tick` has run out. -/
def timerExpired (s : UtpConnection) (env : Env) : Bool :=
  let finInFlight := s.finSent && !s.finAcked && s.state = .finSent
  let needRto := s.state = .synSent ||
    (s.lastRecv.isSome && (!s.sendQueue.isEmpty || finInFlight))
  let sinceLast :=
    if s.state = .synSent then env.now - s.lastSend.getD env.now
    else env.now - s.lastRecv.getD env.now
  needRto && sinceLast > s.timeout

/-- The loop of `process_tick` that cuts pending bytes into DATA packets while the windows
allow it.  Every round takes a byte or more, so a fuel of the pending length is enough. -/
def flushPending (env : Env) : Nat → UtpConnection → UtpConnection
  | 0, s => s
  | fuel + 1, s =>
    if s.pendingSend.isEmpty then s
    else if !s.canSendData then { s with wantWrite := true }
    else
      let payload := s.pendingSend.take s.packetSize.toNat
      let op : OutPacket :=
        { payload, seq := s.seq, sendTime := env.now
          size := UInt32.ofNat payload.length, retransmits := 0 }
      flushPending env fuel <|
        { s with
          pendingSend := s.pendingSend.drop s.packetSize.toNat
          seq := s.seq + 1 }.queueDataPacket op env

/-- `process_tick`, pending data. -/
def tickFlush (s : UtpConnection) (env : Env) : UtpConnection :=
  if s.state = .connected ∨ s.state = .finSent then flushPending env s.pendingSend.length s else s

/-- `process_tick`, pending acknowledgement and read interest. -/
def tickEnd (s : UtpConnection) (env : Env) : UtpConnection :=
  let s := if s.ackPending then s.sendAck env else s
  { s with wantRead := s.wantRead || !s.recvOut.isEmpty || s.eofReceived }

/-- `process_tick`. -/
def processTick (s : UtpConnection) (env : Env) : UtpConnection :=
  if s.state = .closed then s
  else
    let r := s.flushFin env
    if r.2 then r.1
    else if r.1.timerExpired env then r.1.handleTimeout env
    else (r.1.tickFlush env).tickEnd env

end UtpConnection
end XferRust.Utp
