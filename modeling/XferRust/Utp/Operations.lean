import XferRust.Lib.StepRun
import XferRust.Utp.Calls

/-! # Everything that can be done to one connection

The public calls of a connection as one type, so that a statement about a connection can be made
about every sequence of them: any application on this side, any peer and any network on the other,
any clock.  What a call reads from outside is part of the operation.
-/
namespace XferRust.Utp
open UtpConnection

/-- A datagram.  Its length is a sixteen-bit field of UDP, and the socket loop hands over 2048
bytes at most. -/
structure Datagram where
  bytes : List UInt8
  short : bytes.length < 65536

/-- One call. -/
inductive Operation
  | write (data : List UInt8)
  | read (len : Nat)
  | close
  | packet (datagram : Datagram) (env : Env)
  | tick (env : Env)
  | drain

namespace UtpConnection

/-- The connection after a call. -/
def apply (s : UtpConnection) : Operation → UtpConnection
  | .write data => (s.write data).1
  | .read len => (s.read len).1
  | .close => s.close
  | .packet datagram env => s.handlePacket datagram.bytes env
  | .tick env => s.processTick env
  | .drain => s.drainOutbox.1

/-- Every call can be made at any time. -/
def step (s : UtpConnection) (op : Operation) : Option UtpConnection := some (s.apply op)

/-- A connection that has just been made, of either side. -/
inductive Fresh : UtpConnection → Prop
  | outbound (idBytes : UInt16) (env : Env) : Fresh (newOutbound idBytes env)
  | inbound (peerRecvId ackNr seqBytes : UInt16) (env : Env) :
      Fresh (newInbound peerRecvId ackNr seqBytes env)

/-- Packets that carry an acknowledgement. -/
def Acknowledges (hdr : PacketHeader) : Prop :=
  hdr.type_ = stState ∨ hdr.type_ = stData ∨ hdr.type_ = stFin

instance (hdr : PacketHeader) : Decidable (Acknowledges hdr) :=
  inferInstanceAs (Decidable (_ ∨ _ ∨ _))

/-- The connection when `handle_packet` comes to `on_ack`. -/
def beforeAck (s : UtpConnection) (hdr : PacketHeader) (payload : List UInt8) (env : Env) :
    UtpConnection :=
  (s.onArrival hdr env).received hdr payload

/-- A packet that acknowledges is its arm and then `on_ack`. -/
theorem handleParsed_acknowledges {s : UtpConnection} {hdr : PacketHeader} (ha : Acknowledges hdr)
    (exts : List Extension) (payload : List UInt8) (env : Env) :
    s.handleParsed hdr exts payload env =
      (s.beforeAck hdr payload env).onAck hdr.ackNr (sackOf exts) env := by
  unfold handleParsed beforeAck received
  dsimp only
  rcases ha with h | h | h
  · rw [h, if_neg (by decide), if_pos rfl, if_pos rfl]
  · rw [h, if_neg (by decide), if_neg (by decide), if_pos rfl, if_neg (by decide), if_pos rfl]
  · rw [h, if_neg (by decide), if_neg (by decide), if_neg (by decide), if_pos rfl,
      if_neg (by decide), if_neg (by decide), if_pos rfl]

/-- A packet that acknowledges nothing is only noted, and a SYN answered. -/
theorem handleParsed_other {s : UtpConnection} {hdr : PacketHeader} (ha : ¬ Acknowledges hdr)
    (exts : List Extension) (payload : List UInt8) (env : Env) :
    s.handleParsed hdr exts payload env = s.onArrival hdr env ∨
      s.handleParsed hdr exts payload env =
        (s.onArrival hdr env).queueControl stState env 0 := by
  unfold handleParsed
  dsimp only
  split
  · split
    · exact .inr rfl
    · exact .inl rfl
  · rw [if_neg fun h => ha (.inl h), if_neg fun h => ha (.inr (.inl h)),
      if_neg fun h => ha (.inr (.inr h))]
    exact .inl rfl

/-- **What a datagram does.**  It is turned away, it resets the connection, it is noted, or it is
received and acknowledges; the last two may be answered. -/
theorem handlePacket_cases (s : UtpConnection) (data : List UInt8) (env : Env) :
    (parsePacket data = none ∧ s.handlePacket data env = s) ∨
    ∃ hdr exts off, parsePacket data = some (hdr, exts, off) ∧
      ((s.handlePacket data env =
          { s.onArrival hdr env with error := true, state := .closed } ∧ ¬ Acknowledges hdr) ∨
      ∃ t, (s.handlePacket data env = t ∨ s.handlePacket data env = t.sendAck env) ∧
        ((¬ Acknowledges hdr ∧
            (t = s.onArrival hdr env ∨ t = (s.onArrival hdr env).queueControl stState env 0)) ∨
          (Acknowledges hdr ∧
            t = (s.beforeAck hdr (data.drop off) env).onAck hdr.ackNr (sackOf exts) env))) := by
  cases hp : parsePacket data with
  | none => exact .inl ⟨rfl, handlePacket_unparsed hp env⟩
  | some r =>
    obtain ⟨hdr, exts, off⟩ := r
    refine .inr ⟨hdr, exts, off, rfl, ?_⟩
    unfold handlePacket
    rw [hp]
    dsimp only
    by_cases hr : hdr.type_ = stReset
    · rw [if_pos hr]
      refine .inl ⟨rfl, ?_⟩
      rintro (h | h | h) <;> rw [hr] at h <;> revert h <;> decide
    · rw [if_neg hr]
      refine .inr ⟨s.handleParsed hdr exts (data.drop off) env, ?_, ?_⟩
      · split
        · exact .inr rfl
        · exact .inl rfl
      · by_cases ha : Acknowledges hdr
        · exact .inr ⟨ha, handleParsed_acknowledges ha exts _ env⟩
        · exact .inl ⟨ha, handleParsed_other ha exts _ env⟩

end UtpConnection
end XferRust.Utp
