import XferRust.Lib.SerialNumber
import XferRust.Lib.StepRun
import XferRust.Utp.Connection

/-! # Two connections and the network between them

The initiator `a` and the responder `b` of one connection.  A datagram that left an outbox
stays in `wire` for good, so that the network can lose, repeat and reorder at will.  A `Peer`
carries, next to its connection, the history that statements about the streams need; no step
reads it.
-/
namespace XferRust.Utp
open SerialNumber

/-- One end of the link and its history. -/
structure Peer where
  conn : UtpConnection
  /-- The number of its first DATA packet. -/
  isn : UInt16
  /-- The bytes `write` accepted. -/
  accepted : List UInt8
  /-- The payloads cut into DATA packets, in order: entry `i` carries number `nth isn i`. -/
  log : List (List UInt8)
  /-- How many DATA packets had been cut when FIN took its number. -/
  finAt : Option Nat
  /-- The bytes `read` handed out. -/
  handed : List UInt8
  /-- How many of the other side's numbers `ack` acknowledges, without wrapping. -/
  rcvd : Nat
  /-- The datagrams given to the network. -/
  wire : List (List UInt8)

namespace Peer

/-- An end that has done nothing yet. -/
def start (conn : UtpConnection) : Peer :=
  { conn, isn := conn.seq, accepted := [], log := [], finAt := none, handed := [], rcvd := 0
    wire := [] }

/-- The application writes. -/
def write (p : Peer) (data : List UInt8) : Peer :=
  let r := p.conn.write data
  { p with conn := r.1, accepted := p.accepted ++ data.take r.2 }

/-- The application reads into a buffer of `len` bytes. -/
def read (p : Peer) (len : Nat) : Peer :=
  let r := p.conn.read len
  { p with conn := r.1, handed := p.handed ++ r.2 }

/-- The application closes. -/
def close (p : Peer) : Peer := { p with conn := p.conn.close }

/-- The timer ticks. -/
def tick (p : Peer) (env : Env) : Peer :=
  let c := p.conn.processTick env
  { p with
    conn := c
    log := p.log ++ (c.sendQueue.drop p.conn.sendQueue.length).map OutPacket.payload
    finAt := if c.finSent ∧ !p.conn.finSent then some p.log.length else p.finAt }

/-- The outbox goes to the network. -/
def drain (p : Peer) : Peer :=
  let r := p.conn.drainOutbox
  { p with conn := r.1, wire := p.wire ++ r.2 }

/-- How far `ack` has come when a datagram has led from `c` to `c'`.  While the SYN is
unanswered nothing is acknowledged; the first answer fixes `ack` relative to the peer's first
number. -/
def rcvdAfter (rcvd : Nat) (peerIsn : UInt16) (c c' : UtpConnection) : Nat :=
  if c.state = .synSent then
    if c'.state = .synSent then rcvd else (c'.ack + 1 - peerIsn).toNat
  else rcvd + (c'.ack - c.ack).toNat

/-- A datagram of the other side, whose first number is `peerIsn`, arrives. -/
def receive (p : Peer) (peerIsn : UInt16) (env : Env) (pkt : List UInt8) : Peer :=
  let c := p.conn.handlePacket pkt env
  { p with conn := c, rcvd := rcvdAfter p.rcvd peerIsn p.conn c }

end Peer

/-- The two ends. -/
inductive Side
  | a
  | b
  deriving DecidableEq

/-- The other end. -/
def Side.other : Side → Side
  | .a => .b
  | .b => .a

/-- What can happen at one end. -/
inductive Act
  | write (data : List UInt8)
  | read (len : Nat)
  | close
  | tick (env : Env)
  | drain
  | receive (env : Env) (pkt : List UInt8)

/-- An event at one end; `peerIsn` is the first number of the other end. -/
def Peer.act (p : Peer) (peerIsn : UInt16) : Act → Peer
  | .write data => p.write data
  | .read len => p.read len
  | .close => p.close
  | .tick env => p.tick env
  | .drain => p.drain
  | .receive env pkt => p.receive peerIsn env pkt

namespace Act

/-- The header and the payload of the packet that arrives. -/
def arriving : Act → Option (PacketHeader × List UInt8)
  | .receive _ pkt => (parsePacket pkt).map fun r => (r.1, pkt.drop r.2.2)
  | _ => none

def isTick : Act → Bool
  | .tick _ => true
  | _ => false

def isWrite : Act → Bool
  | .write _ => true
  | _ => false

def isClose : Act → Bool
  | .close => true
  | _ => false

theorem arriving_receive (env : Env) {pkt : List UInt8} {hdr : PacketHeader}
    {exts : List Extension} {off : Nat} (hp : parsePacket pkt = some (hdr, exts, off)) :
    (receive env pkt).arriving = some (hdr, pkt.drop off) := by
  rw [arriving, hp]
  rfl

end Act

/-- Both ends. -/
structure Link where
  a : Peer
  b : Peer

namespace Link

def get (l : Link) : Side → Peer
  | .a => l.a
  | .b => l.b

def set (l : Link) : Side → Peer → Link
  | .a, p => { l with a := p }
  | .b, p => { l with b := p }

/-- Both ends at the beginning: the responder answers the initiator's SYN.  `seqBytes` is the
random first number of the responder. -/
def start (idBytes seqBytes : UInt16) (env : Env) : Link :=
  let a := UtpConnection.newOutbound idBytes env
  { a := .start a, b := .start (.newInbound a.recvId a.synSeq seqBytes env) }

/-- Whether a datagram still reaches the connection.  The socket forgets a closed initiator
at once; a responder that closes on a repeated SYN may still see a datagram. -/
def listening (l : Link) (s : Side) : Bool :=
  s = .b || !((l.get s).conn.isClosed || (l.get s).conn.hasError)

local instance : LawfulBEq (List UInt8) := inferInstance

/-- Only a datagram the other end has sent can arrive. -/
def enabled (l : Link) (e : Side × Act) : Bool :=
  match e.2 with
  | .receive _ pkt => l.listening e.1 && pkt ∈ (l.get e.1.other).wire
  | _ => true

/-- One event at one end. -/
def step (l : Link) (e : Side × Act) : Option Link :=
  if l.enabled e then some (l.set e.1 ((l.get e.1).act (l.get e.1.other).isn e.2)) else none

theorem step_eq_some {l l' : Link} {e : Side × Act} :
    l.step e = some l' ↔
      l.enabled e = true ∧ l' = l.set e.1 ((l.get e.1).act (l.get e.1.other).isn e.2) := by
  rw [step, Option.ite_none_right_eq_some, Option.some.injEq, eq_comm (a := l')]

/-- The state a run of events leads to. -/
abbrev run : Link → List (Side × Act) → Option Link := StepRun.run step

/-! ## Conditions on the steps of a run -/

/-- Number `n` of the peer lies less than `2 ^ 15` from the last acknowledged one. -/
def Near (rcvd n : Nat) : Prop := n + 1 < rcvd + 32768 ∧ rcvd < n + 1 + 32768

instance (rcvd n : Nat) : Decidable (Near rcvd n) := inferInstanceAs (Decidable (_ ∧ _))

/-- The packet of number `seq` with this payload is one of `p`'s near `rcvd`. -/
def NearData (p : Peer) (rcvd : Nat) (seq : UInt16) (payload : List UInt8) : Prop :=
  ∃ n < p.log.length, p.log[n]? = some payload ∧ seq = nth p.isn n ∧ Near rcvd n

instance (p : Peer) (rcvd : Nat) (seq : UInt16) (payload : List UInt8) :
    Decidable (NearData p rcvd seq payload) :=
  inferInstanceAs (Decidable (∃ n < _, _))

/-- An arriving DATA or FIN packet lies within half the number space of the receiver's
cumulative acknowledgement, in the numbering that does not wrap. -/
def InWindow (l : Link) (e : Side × Act) : Prop :=
  ∀ r ∈ e.2.arriving,
    (r.1.type_ = stData → NearData (l.get e.1.other) (l.get e.1).rcvd r.1.seqNr r.2) ∧
    (r.1.type_ = stFin → ∀ f ∈ (l.get e.1.other).finAt, Near (l.get e.1).rcvd f)

/-- When the next DATA packet in order arrives and the one after it is buffered, that one has
the least key of the reorder buffer. -/
def DrainsFromFirst (l : Link) (e : Side × Act) : Prop :=
  ∀ r ∈ e.2.arriving,
    r.1.type_ = stData → r.1.seqNr = (l.get e.1).conn.ack + 1 → r.2 ≠ [] →
      r.1.seqNr + 1 ∈ (l.get e.1).conn.recvReorder.keys →
        (l.get e.1).conn.recvReorder.first?.map Prod.fst = some (r.1.seqNr + 1)

/-- A tick that finds FIN pending has no bytes left to cut. -/
def FinWhenFlushed (l : Link) (e : Side × Act) : Prop :=
  e.2.isTick = true → (l.get e.1).conn.finPending = true → (l.get e.1).conn.pendingSend = []

/-- A tick that finds FIN pending or sent has no bytes left to cut. -/
def FinAfterData (l : Link) (e : Side × Act) : Prop :=
  e.2.isTick = true →
    (l.get e.1).conn.finPending = true ∨ (l.get e.1).conn.finSent = true →
      (l.get e.1).conn.pendingSend = []

/-- No DATA or FIN packet is handled while the SYN is unanswered. -/
def AnsweredFirst (l : Link) (e : Side × Act) : Prop :=
  ∀ r ∈ e.2.arriving, (l.get e.1).conn.state = .synSent → r.1.type_ ≠ stData ∧ r.1.type_ ≠ stFin

/-- The application does not write after it has closed. -/
def NoWriteAfterClose (l : Link) (e : Side × Act) : Prop :=
  e.2.isWrite = true →
    (l.get e.1).conn.finPending = false ∧ (l.get e.1).conn.finSent = false

/-- The application does not close. -/
def NoClose (e : Side × Act) : Prop := e.2.isClose = false

instance (l : Link) (e : Side × Act) : Decidable (l.InWindow e) :=
  inferInstanceAs (Decidable (∀ r ∈ _, _))

instance (l : Link) (e : Side × Act) : Decidable (l.DrainsFromFirst e) :=
  inferInstanceAs (Decidable (∀ r ∈ _, _))

instance (l : Link) (e : Side × Act) : Decidable (l.FinWhenFlushed e) :=
  inferInstanceAs (Decidable (_ → _))

instance (l : Link) (e : Side × Act) : Decidable (l.FinAfterData e) :=
  inferInstanceAs (Decidable (_ → _))

instance (l : Link) (e : Side × Act) : Decidable (l.AnsweredFirst e) :=
  inferInstanceAs (Decidable (∀ r ∈ _, _))

instance (l : Link) (e : Side × Act) : Decidable (l.NoWriteAfterClose e) :=
  inferInstanceAs (Decidable (_ → _))

instance (e : Side × Act) : Decidable (NoClose e) := inferInstanceAs (Decidable (_ = _))

end Link
end XferRust.Utp
