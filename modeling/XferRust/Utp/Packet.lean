import XferRust.Lib.BigEndian

/-! # uTP packets (BEP 29)

The fixed twenty-byte header, the chain of extensions behind it and the SACK bitmap, as
`utp_packet.rs` encodes and parses them.  `parsePacket` is the inverse of the encoder on
the packets a connection sends (`parsePacket_plain`, `parsePacket_sack`); nothing else about
the byte format is needed above this module.
-/
namespace XferRust.Utp

/-- `PROTOCOL_VERSION`. -/
def protocolVersion : UInt8 := 1

/-- `HEADER_LEN`. -/
def headerLen : Nat := 20

/-! ## Packet and extension types -/

def stData : UInt8 := 0
def stFin : UInt8 := 1
def stState : UInt8 := 2
def stReset : UInt8 := 3
def stSyn : UInt8 := 4

def extNone : UInt8 := 0
def extSack : UInt8 := 1

/-- The packet header. -/
structure PacketHeader where
  /-- Packet type, the high four bits of the first byte. -/
  type_ : UInt8
  version : UInt8
  /-- Type of the first extension, `extNone` without one. -/
  extension : UInt8
  connectionId : UInt16
  timestamp : UInt32
  timestampDiff : UInt32
  wndSize : UInt32
  seqNr : UInt16
  ackNr : UInt16
  deriving DecidableEq

/-- An extension: its type and its payload. -/
abbrev Extension := UInt8 × List UInt8

/-- The loop of `parse_packet` over the extension chain: `rest` are the bytes from offset
`off` on.  Every round takes two bytes or more, so a fuel of `rest.length` is enough. -/
def parseExtensions (fuel : Nat) (extType : UInt8) (rest : List UInt8) (off : Nat) :
    Option (List Extension × Nat) :=
  if extType = extNone then some ([], off)
  else
    match fuel, rest with
    | fuel + 1, nextType :: extLen :: body =>
      if body.length < extLen.toNat then none
      else
        (parseExtensions fuel nextType (body.drop extLen.toNat) (off + 2 + extLen.toNat)).map
          fun r => ((extType, body.take extLen.toNat) :: r.1, r.2)
    | _, _ => none

/-- `parse_packet`: the header, the extensions in wire order, and the offset of the payload. -/
def parsePacket (data : List UInt8) : Option (PacketHeader × List Extension × Nat) :=
  match data with
  | b0 :: b1 :: b2 :: b3 :: b4 :: b5 :: b6 :: b7 :: b8 :: b9 :: b10 :: b11 :: b12 :: b13 ::
      b14 :: b15 :: b16 :: b17 :: b18 :: b19 :: rest =>
    if b0 &&& 0x0F ≠ protocolVersion then none
    else
      let header : PacketHeader :=
        { type_ := (b0 >>> 4) &&& 0x0F
          version := b0 &&& 0x0F
          extension := b1
          connectionId := BigEndian.toU16 b2 b3
          timestamp := BigEndian.toU32 b4 b5 b6 b7
          timestampDiff := BigEndian.toU32 b8 b9 b10 b11
          wndSize := BigEndian.toU32 b12 b13 b14 b15
          seqNr := BigEndian.toU16 b16 b17
          ackNr := BigEndian.toU16 b18 b19 }
      (parseExtensions rest.length header.extension rest headerLen).map
        fun r => (header, r.1, r.2)
  | _ => none

/-- `encode_header`. -/
def encodeHeader (h : PacketHeader) : List UInt8 :=
  (((h.type_ &&& 0x0F) <<< 4) ||| (h.version &&& 0x0F)) :: h.extension ::
    (BigEndian.ofU16 h.connectionId ++ BigEndian.ofU32 h.timestamp ++
      BigEndian.ofU32 h.timestampDiff ++ BigEndian.ofU32 h.wndSize ++
      BigEndian.ofU16 h.seqNr ++ BigEndian.ofU16 h.ackNr)

/-- `decode_sack_bits`: bit `i` of byte `b` of the bitmap stands for `ack_nr + 2 + 8b + i`. -/
def decodeSackBits (payload : List UInt8) : UInt32 :=
  match payload with
  | b0 :: b1 :: b2 :: b3 :: _ =>
    b0.toUInt32 ||| (b1.toUInt32 <<< 8) ||| (b2.toUInt32 <<< 16) ||| (b3.toUInt32 <<< 24)
  | _ => 0

/-- The SACK extension as `queue_control` lays it down: no next extension, four bytes, the
bitmap with its lowest byte first. -/
def encodeSack (bits : UInt32) : List UInt8 :=
  [extNone, 4, bits.toUInt8, (bits >>> 8).toUInt8, (bits >>> 16).toUInt8, (bits >>> 24).toUInt8]

/-- `seq_after`: `a` lies strictly after `b`, up to wrapping. -/
def seqAfter (a b : UInt16) : Bool := 0 < (a - b).toInt16

/-- `seq_leq`: `a` lies before `b` or is `b`, up to wrapping. -/
def seqLeq (a b : UInt16) : Bool := (a - b).toInt16 ≤ 0

/-! ## The parser inverts the encoder -/

theorem typeNibble (t v : UInt8) :
    ((((t &&& 0x0F) <<< 4) ||| (v &&& 0x0F)) >>> 4) &&& 0x0F = t &&& 0x0F := by
  apply UInt8.eq_of_toBitVec_eq
  simp
  ext i h
  have : i = 0 ∨ i = 1 ∨ i = 2 ∨ i = 3 ∨ i = 4 ∨ i = 5 ∨ i = 6 ∨ i = 7 := by omega
  rcases this with rfl | rfl | rfl | rfl | rfl | rfl | rfl | rfl <;> simp

theorem versionNibble (t v : UInt8) :
    (((t &&& 0x0F) <<< 4) ||| (v &&& 0x0F)) &&& 0x0F = v &&& 0x0F := by
  apply UInt8.eq_of_toBitVec_eq
  simp
  ext i h
  have : i = 0 ∨ i = 1 ∨ i = 2 ∨ i = 3 ∨ i = 4 ∨ i = 5 ∨ i = 6 ∨ i = 7 := by omega
  rcases this with rfl | rfl | rfl | rfl | rfl | rfl | rfl | rfl <;> simp

/-- A header a connection writes: its type fits in four bits and its version is ours. -/
def PacketHeader.WellFormed (h : PacketHeader) : Prop :=
  h.type_ &&& 0x0F = h.type_ ∧ h.version = protocolVersion

@[simp] theorem length_encodeHeader (h : PacketHeader) :
    (encodeHeader h).length = headerLen := rfl

variable {h : PacketHeader}

/-- The first byte of an encoded header gives its type back. -/
theorem PacketHeader.WellFormed.type_byte (hw : h.WellFormed) :
    ((((h.type_ &&& 0x0F) <<< 4) ||| (h.version &&& 0x0F)) >>> 4) &&& 0x0F = h.type_ :=
  (typeNibble _ _).trans hw.1

/-- The first byte of an encoded header gives its version back. -/
theorem PacketHeader.WellFormed.version_byte (hw : h.WellFormed) :
    (((h.type_ &&& 0x0F) <<< 4) ||| (h.version &&& 0x0F)) &&& 0x0F = h.version := by
  rw [versionNibble, hw.2]
  rfl

/-- Parsing what follows an encoded header is parsing its extension chain. -/
theorem parsePacket_encodeHeader (hw : h.WellFormed) (rest : List UInt8) :
    parsePacket (encodeHeader h ++ rest) =
      (parseExtensions rest.length h.extension rest headerLen).map fun r => (h, r.1, r.2) := by
  simp only [encodeHeader, BigEndian.ofU16, BigEndian.ofU32, List.cons_append, List.nil_append,
    parsePacket, hw.type_byte, hw.version_byte, BigEndian.toU16_ofU16, BigEndian.toU32_ofU32]
  rw [if_neg (not_not_intro hw.2)]

/-- A packet without extensions parses back to its header, with its payload behind it. -/
theorem parsePacket_plain (hw : h.WellFormed) (he : h.extension = extNone) (payload : List UInt8) :
    parsePacket (encodeHeader h ++ payload) = some (h, [], headerLen) := by
  rw [parsePacket_encodeHeader hw, he]
  unfold parseExtensions
  rfl

/-- A control packet with a SACK bitmap parses back to its header. -/
theorem parsePacket_sack (hw : h.WellFormed) (he : h.extension = extSack) (bits : UInt32) :
    parsePacket (encodeHeader h ++ encodeSack bits) =
      some (h, [(extSack, (encodeSack bits).drop 2)], headerLen + 6) := by
  rw [parsePacket_encodeHeader hw, he]
  rfl

end XferRust.Utp
