import XferRust.Bencode.RoundTrip
import XferRust.Bencode.Torrent
import XferRust.Lib.StepRun

/-! # The transfer of metadata

A magnet link knows the hash of an info dictionary only.  The dictionary itself comes from the
peers in pieces of 16 KiB, over the `ut_metadata` extension: `serve_ut_metadata` answers a
request, `handle_metadata_payload` takes an answer, and `MetadataAccum` collects them until they
are all there.

The hash function is a parameter, as in `parse_info_bytes`; nothing is assumed of it.
-/
namespace XferRust.Swarm

open Bencode
open SortedMap (lookup)

/-- `METADATA_PIECE_SIZE`. -/
def metadataPieceSize : Nat := 16 * 1024

/-- `MAX_METADATA_SIZE`. -/
def maxMetadataSize : Nat := 4 * 1024 * 1024

/-- `UT_METADATA_REQUEST`, `UT_METADATA_DATA` and `UT_METADATA_REJECT`. -/
def utMetadataRequest : Int64 := 0

def utMetadataData : Int64 := 1

def utMetadataReject : Int64 := 2

/-- `b"msg_type"`. -/
abbrev msgTypeKey : Key := [109, 115, 103, 95, 116, 121, 112, 101]
/-- `b"piece"`. -/
abbrev pieceKey : Key := [112, 105, 101, 99, 101]
/-- `b"total_size"`. -/
abbrev totalSizeKey : Key := [116, 111, 116, 97, 108, 95, 115, 105, 122, 101]

/-- `usize::div_ceil`, by the size of a piece. -/
def metadataPieceCount (size : Nat) : Nat := (size + metadataPieceSize - 1) / metadataPieceSize

/-- `MetadataAccum`. -/
structure MetadataAccum where
  /-- The pieces that came, by index. -/
  pieces : SortedMap Nat (List UInt8)
  expectedSize : Option Nat
  /-- The pieces that were asked for. -/
  requested : List Nat

namespace MetadataAccum

/-- `MetadataAccum::default`, and what `reset` leaves. -/
def empty : MetadataAccum := { pieces := .empty, expectedSize := none, requested := [] }

/-- `piece_count`. -/
def pieceCount (md : MetadataAccum) : Option Nat := md.expectedSize.map metadataPieceCount

/-- `assemble`. -/
def assemble (md : MetadataAccum) : Option (List UInt8) :=
  md.pieceCount.bind fun count =>
    if md.pieces.entries.length ≠ count then none
    else ((List.range count).mapM md.pieces.find?).map List.flatten

/-- A piece of metadata of this size comes: metadata of another size is dropped first. -/
def collect (md : MetadataAccum) (totalSize piece : Nat) (bytes : List UInt8) : MetadataAccum :=
  let md := if md.expectedSize ≠ some totalSize then
      { pieces := .empty, expectedSize := some totalSize, requested := [] }
    else md
  { md with pieces := md.pieces.insert piece bytes }

/-- `next_metadata_piece`: the first piece that neither came nor was asked for. -/
def nextMetadataPiece (md : MetadataAccum) : MetadataAccum × Option Nat :=
  match md.pieceCount with
  | none => (md, none)
  | some count =>
    match (List.range count).find? fun i => i ∉ md.requested ∧ md.pieces.find? i = none with
    | none => (md, none)
    | some i => ({ md with requested := i :: md.requested }, some i)

/-- `run_metadata_exchange` asks for the first piece, unless it came. -/
def askFirst (md : MetadataAccum) : MetadataAccum :=
  if md.pieces.find? 0 = none then { md with requested := 0 :: md.requested } else md

/-- `release_unreceived_metadata_pieces`. -/
def releaseUnreceived (md : MetadataAccum) : MetadataAccum :=
  match md.pieceCount with
  | none =>
    if md.pieces.find? 0 = none then { md with requested := md.requested.filter (· ≠ 0) } else md
  | some count =>
    { md with requested := md.requested.filter fun i =>
        ¬ (i < count ∧ md.pieces.find? i = none) }

end MetadataAccum

/-! ## The messages -/

/-- An integer of a header. -/
def headerInt (dict : List (Key × Value)) (key : Key) : Option Int64 :=
  (lookup key dict).bind Value.asInt

/-- `i64 as usize`. -/
def asUsize (i : Int64) : Nat := i.toUInt64.toNat

/-- The payload that `ut_metadata_request` sends. -/
def utMetadataRequestPayload (piece : Nat) : List UInt8 :=
  encode (.dict [(msgTypeKey, .int utMetadataRequest), (pieceKey, .int (Int64.ofNat piece))])

/-- The bytes of a piece of an info dictionary. -/
def metadataSlice (info : List UInt8) (piece : Nat) : List UInt8 :=
  (info.drop (piece * metadataPieceSize)).take metadataPieceSize

/-- The payload of a `DATA` message. -/
def dataPayload (info : List UInt8) (piece : Nat) : List UInt8 :=
  encode (.dict [(msgTypeKey, .int utMetadataData), (pieceKey, .int (Int64.ofNat piece)),
    (totalSizeKey, .int (Int64.ofNat info.length))]) ++ metadataSlice info piece

/-- The payload of a `REJECT` message. -/
def rejectPayload (piece : Nat) : List UInt8 :=
  encode (.dict [(msgTypeKey, .int utMetadataReject), (pieceKey, .int (Int64.ofNat piece))])

/-- The header of a payload and where it ends. -/
def parseHeader (payload : List UInt8) : Option (List (Key × Value) × Nat) :=
  match decodePrefix payload with
  | .ok (.dict dict, consumed) => some (dict, consumed)
  | _ => none

/-- `serve_ut_metadata`: the payload of the answer, if there is one, for a peer that announced
the extension identifier `replyExtId`. -/
def serveUtMetadata (rawInfo : Option (List UInt8)) (replyExtId : UInt8) (payload : List UInt8) :
    Option (List UInt8) :=
  if replyExtId = 0 then none
  else
    match parseHeader payload with
    | none => none
    | some (dict, _) =>
      if (headerInt dict msgTypeKey).getD (-1) ≠ utMetadataRequest then none
      else
        match (headerInt dict pieceKey).filter fun p => 0 ≤ p.toInt with
        | none => none
        | some p =>
          let piece := asUsize p
          match rawInfo with
          | none => some (rejectPayload piece)
          | some info =>
            if piece < metadataPieceCount info.length then some (dataPayload info piece)
            else some (rejectPayload piece)

/-- What a `DATA` message has to say, once it has passed the checks. -/
structure DataPiece where
  piece : Nat
  totalSize : Nat
  bytes : List UInt8

/-- The checks of `handle_metadata_payload` on a `DATA` message with the header `dict`. -/
def checkData (dict : List (Key × Value)) (infoBytes : List UInt8) : Except String DataPiece := do
  let piece ← okOr ((headerInt dict pieceKey).map asUsize) "缺少 piece"
  let totalSize ← okOr ((headerInt dict totalSizeKey).map asUsize) "缺少 total_size"
  if totalSize = 0 ∨ maxMetadataSize < totalSize then .error s!"元数据总大小非法: {totalSize}"
  else if infoBytes = [] then .error "空元数据分片"
  else
    let pieceCount := metadataPieceCount totalSize
    if pieceCount ≤ piece then .error s!"元数据分片索引越界: {piece} >= {pieceCount}"
    else
      let expectedLen := min metadataPieceSize (totalSize - piece * metadataPieceSize)
      let len := infoBytes.length
      if len ≠ expectedLen then .error s!"元数据分片长度错误: {len} != {expectedLen}"
      else .ok { piece, totalSize, bytes := infoBytes }

/-- What a payload of `handle_metadata_payload` turns out to be. -/
inductive Payload where
  /-- An error that ends the session and leaves the collection alone. -/
  | bad (message : String)
  /-- `REJECT`, with the piece it names. -/
  | reject (piece : Option Nat)
  /-- Neither `DATA` nor `REJECT`. -/
  | other
  | data (d : DataPiece)

/-- The part of `handle_metadata_payload` before it takes the lock. -/
def parsePayload (payload : List UInt8) : Payload :=
  match decodePrefix payload with
  | .error e => .bad ("metadata 头解析失败: " ++ e.message)
  | .ok (v, consumed) =>
    match v.asDict with
    | none => .bad "metadata 头必须是字典"
    | some dict =>
      let msgType := (headerInt dict msgTypeKey).getD (-1)
      if msgType = utMetadataReject then .reject ((headerInt dict pieceKey).map asUsize)
      else if msgType ≠ utMetadataData then .other
      else
        match checkData dict (payload.drop consumed) with
        | .error e => .bad e
        | .ok d => .data d

section
variable {Hash : Type} [DecidableEq Hash] (sha1 : List UInt8 → Hash)
  (decodeText : List UInt8 → String) (infoHash : Hash)

/-- The checks on assembled metadata: it parses, and it has the hash of the link. -/
def judge (assembled : List UInt8) : Except String (TorrentMeta Hash) :=
  match parseInfoBytes sha1 decodeText assembled with
  | .error e => .error ("元数据解析失败: " ++ e)
  | .ok m => if m.infoHash ≠ infoHash then .error "元数据 info_hash 不匹配" else .ok m

/-- What comes of a piece that was collected: nothing as long as pieces are missing, the metadata
to install, or an error, which leaves nothing collected. -/
def settle (md : MetadataAccum) : MetadataAccum × Except String (Option (TorrentMeta Hash)) :=
  match md.assemble with
  | none => (md, .ok none)
  | some assembled =>
    match judge sha1 decodeText infoHash assembled with
    | .error e => (.empty, .error e)
    | .ok m => (md, .ok (some m))

/-- `handle_metadata_payload`, up to the call of `install_metadata` with what it returns. -/
def handleMetadataPayload (md : MetadataAccum) (payload : List UInt8) :
    MetadataAccum × Except String (Option (TorrentMeta Hash)) :=
  match parsePayload payload with
  | .bad e => (md, .error e)
  | .reject piece =>
    let requested := match piece with
      | some p => md.requested.filter (· ≠ p)
      | none => md.requested
    ({ md with requested }, .error "对端拒绝提供元数据")
  | .other => (md, .ok none)
  | .data d => settle sha1 decodeText infoHash (md.collect d.totalSize d.piece d.bytes)

end

end XferRust.Swarm
