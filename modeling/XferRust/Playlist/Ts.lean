import XferRust.Lib.Demux
import XferRust.Lib.Faults
import XferRust.Lib.Records
import XferRust.Lib.SortedMap

/-! # MPEG-TS: tables and PES packets

A segment of 188-byte packets is taken apart: the tables that say which stream is on which PID,
and the PES packets of those streams.  Every index, slice and difference of the source is checked,
and its loops are given a number of rounds.  Bit fields are read and written as arithmetic.
-/
namespace XferRust.Playlist
open Guarded SortedMap

/-- `TS_PACKET`. -/
def tsPacket : Nat := 188

/-- `TS_PAYLOAD`. -/
def tsPayload : Nat := tsPacket - 4

/-- `TS_SYNC`. -/
def tsSync : UInt8 := 0x47

/-- `Pes`. -/
structure Pes where
  pid : Nat
  header : List UInt8
  payload : List UInt8
  /-- The adaptation field of the first packet, behind its length. -/
  firstAf : List UInt8
  deriving DecidableEq

/-- The stream types by PID; of several entries for a PID the first one counts. -/
abbrev Streams := List (Nat × UInt8)

/-! ## Packets -/

/-- A PID in two bytes. -/
def pidOf (high low : UInt8) : Nat := high.toNat % 32 * 256 + low.toNat

/-- A length of twelve bits in two bytes. -/
def lengthOf (high low : UInt8) : Nat := high.toNat % 16 * 256 + low.toNat

/-- What the bytes behind the sync byte say. -/
structure Fields where
  pid : Nat
  /-- `payload_unit_start_indicator`. -/
  pusi : Bool
  /-- `adaptation_field_control`: 2 and 3 with an adaptation field, 1 and 3 with a payload. -/
  afc : Nat

/-- The fields of a packet. -/
def readFields (pkt : List UInt8) : Guarded String Fields := do
  let b1 ← index pkt 1
  let b2 ← index pkt 2
  let b3 ← index pkt 3
  .ok { pid := pidOf b1 b2, pusi := b1.toNat / 64 % 2 = 1, afc := b3.toNat / 16 % 4 }

/-- The payload behind the adaptation field. -/
def readPayload (pkt : List UInt8) (afc : Nat) : Guarded String (List UInt8) := do
  let off ← if 2 ≤ afc then do
      let len ← index pkt 4
      .ok (5 + len.toNat)
    else .ok 4
  if afc % 2 = 1 ∧ off < tsPacket then sliceFrom pkt off else .ok []

/-- The adaptation field behind its length. -/
def readAf (pkt : List UInt8) (afc : Nat) : Guarded String (List UInt8) :=
  if 2 ≤ afc then do
    let len ← index pkt 4
    if 0 < len then slice pkt 5 (min (5 + len.toNat) tsPacket) else .ok []
  else .ok []

/-- `packet_payload`. -/
def packetPayload (pkt : List UInt8) : Guarded String (Nat × Bool × List UInt8) := do
  let f ← readFields pkt
  let payload ← readPayload pkt f.afc
  .ok (f.pid, f.pusi, payload)

/-! ## Tables -/

/-- `xs.get(a..)`. -/
def getFrom (xs : List UInt8) (a : Nat) : Option (List UInt8) :=
  if a ≤ xs.length then some (xs.drop a) else none

/-- `xs.get(a..b)`. -/
def getRange (xs : List UInt8) (a b : Nat) : Option (List UInt8) :=
  if a ≤ b ∧ b ≤ xs.length then some ((xs.drop a).take (b - a)) else none

/-- The section behind the `pointer_field` of a payload. -/
def sectionOf (payload : List UInt8) : Option (List UInt8) :=
  payload.head?.bind fun ptr => getFrom payload (1 + ptr.toNat)

/-- The loop of `parse_pat` over `count` programs from the `i`-th on. -/
def programLoop (body : List UInt8) : Nat → Nat → Guarded String (Option Nat)
  | 0, _ => .ok none
  | count + 1, i =>
    match getRange body (i * 4) (i * 4 + 4) with
    | none => .ok none
    | some p => do
      let p0 ← index p 0
      let p1 ← index p 1
      let p2 ← index p 2
      let p3 ← index p 3
      if p0.toNat * 256 + p1.toNat ≠ 0 then .ok (some (pidOf p2 p3))
      else programLoop body count (i + 1)

/-- `parse_pat`. -/
def parsePat (payload : List UInt8) : Guarded String (Option Nat) :=
  match sectionOf payload with
  | none => .ok none
  | some sec =>
    if sec.length < 12 then .ok none
    else do
      let tableId ← index sec 0
      if tableId ≠ 0 then .ok none
      else do
        let s1 ← index sec 1
        let s2 ← index sec 2
        let secLen := lengthOf s1 s2
        -- the difference in a condition without consequences
        let _ ← if secLen < 9 then .ok 0 else sub (3 + secLen) 4
        match getFrom sec 8 with
        | none => .ok none
        | some body => programLoop body ((secLen - 5) / 4) 0

/-- The loop of `parse_pmt`. -/
def pmtLoop (sec : List UInt8) (stop : Nat) : Nat → Nat → Streams → Guarded String Streams
  | 0, _, _ => .error .endless
  | rounds + 1, i, out =>
    if i + 5 ≤ stop then do
      let streamType ← index sec i
      let s1 ← index sec (i + 1)
      let s2 ← index sec (i + 2)
      let s3 ← index sec (i + 3)
      let s4 ← index sec (i + 4)
      pmtLoop sec stop rounds (i + (5 + lengthOf s3 s4)) ((pidOf s1 s2, streamType) :: out)
    else .ok out

/-- `parse_pmt`: whether there was a whole section, and the streams. -/
def parsePmt (payload : List UInt8) (out : Streams) : Guarded String (Bool × Streams) :=
  match sectionOf payload with
  | none => .ok (false, out)
  | some sec =>
    if sec.length < 12 then .ok (false, out)
    else do
      let tableId ← index sec 0
      if tableId ≠ 2 then .ok (false, out)
      else do
        let s1 ← index sec 1
        let s2 ← index sec 2
        let secLen := lengthOf s1 s2
        if sec.length < 3 + secLen then .ok (false, out)
        else do
          let s10 ← index sec 10
          let s11 ← index sec 11
          let stop ← sub (3 + secLen) 4
          let out ← pmtLoop sec stop (stop + 1) (12 + lengthOf s10 s11) out
          if out.isEmpty then fail "SAMPLE-AES(TS) 的 PMT 里没有基本流"
          else .ok (true, out)

/-- The first loop of `scan_tables`: the PID of the PMT. -/
def findPat : List (List UInt8) → Guarded String (Option Nat)
  | [] => .ok none
  | pkt :: pkts => do
    let (pid, pusi, payload) ← packetPayload pkt
    if pid = 0 ∧ pusi then do
      let pmtPid ← parsePat payload
      if pmtPid.isSome then .ok pmtPid else findPat pkts
    else findPat pkts

/-- The second loop of `scan_tables`: the streams of the PMT. -/
def findPmt (pmtPid : Nat) : List (List UInt8) → Streams → Guarded String Streams
  | [], _ => fail "SAMPLE-AES(TS) 分片里的 PMT 不完整（跨包）"
  | pkt :: pkts, streams => do
    let (pid, pusi, payload) ← packetPayload pkt
    if pid = pmtPid ∧ pusi then do
      let (whole, streams) ← parsePmt payload streams
      if whole then .ok streams else findPmt pmtPid pkts streams
    else findPmt pmtPid pkts streams

/-- `scan_tables`. -/
def scanTables (data : List UInt8) : Guarded String (Nat × Streams) := do
  match ← findPat (Records.chunksExact tsPacket data) with
  | none => fail "SAMPLE-AES(TS) 分片里找不到 PAT/PMT"
  | some pmtPid => do
    let streams ← findPmt pmtPid (Records.chunksExact tsPacket data) []
    .ok (pmtPid, streams)

/-! ## PES packets -/

/-- The stream ids without an optional header. -/
def plainStreamIds : List UInt8 := [0xBC, 0xBE, 0xBF, 0xF0, 0xF1, 0xF2, 0xF8, 0xFF]

/-- `pes_payload_start`. -/
def pesPayloadStart (pes : List UInt8) : Guarded String (Option Nat) :=
  if pes.length < 6 then .ok none
  else do
    let b0 ← index pes 0
    let b1 ← index pes 1
    let b2 ← index pes 2
    if b0 ≠ 0 ∨ b1 ≠ 0 ∨ b2 ≠ 1 then .ok none
    else do
      let streamId ← index pes 3
      if streamId ∈ plainStreamIds then .ok (some 6)
      else if pes.length < 9 then .ok none
      else do
        let headerDataLen ← index pes 8
        let start := 9 + headerDataLen.toNat
        if pes.length < start then .ok none else .ok (some start)

/-- The loop of `reassemble_pes`; the one PES that is being added to is known by its place. -/
def reassembleLoop (streams : Streams) :
    List (List UInt8) → List Pes → Option Nat → Guarded String (List Pes)
  | [], out, _ => .ok out
  | pkt :: pkts, out, cur => do
    let f ← readFields pkt
    if (lookup f.pid streams).isNone then reassembleLoop streams pkts out cur
    else do
      let af ← readAf pkt f.afc
      let payload ← readPayload pkt f.afc
      if f.pusi then do
        match ← pesPayloadStart payload with
        | none =>
          let pid := f.pid
          fail s!"SAMPLE-AES(TS) 的 PID {pid} 上 PES 头不完整（跨包）"
        | some start => do
          let header ← slice payload 0 start
          let rest ← sliceFrom payload start
          reassembleLoop streams pkts
            (out ++ [{ pid := f.pid, header, payload := rest, firstAf := af }]) (some out.length)
      else
        match cur with
        | none => reassembleLoop streams pkts out cur
        | some i => do
          let pes ← index out i
          if pes.pid = f.pid then
            reassembleLoop streams pkts
              (out.set i { pes with payload := pes.payload ++ payload }) cur
          else reassembleLoop streams pkts out cur

/-- `reassemble_pes`. -/
def reassemblePes (data : List UInt8) (streams : Streams) : Guarded String (List Pes) :=
  reassembleLoop streams (Records.chunksExact tsPacket data) [] none

end XferRust.Playlist
