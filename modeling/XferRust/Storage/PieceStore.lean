import XferRust.Lib.ByteFile
import XferRust.Storage.Layout

/-! # The piece store

`PieceStore` of `piece.rs`: the files of a torrent behind a write-back cache of whole pieces,
and the map of the pieces that are done.  A file is named by what its path resolves to, so that
two paths may lead to one file.  The outcomes of the disk's writes are given beforehand; where
none is left, writes succeed.  A call that panics returns nothing.  The byte counter of the cache
is a natural number, for it counts bytes that are in memory.  Paths and the migration of old
directories, which precede the first call, are not modelled beyond `resolve`.
-/
namespace XferRust.Storage
open ByteFile

/-! ## The map of pieces -/

/-- The mask of bit `i` in its byte, the highest bit first. -/
def bitMask (i : UInt32) : UInt8 := 0x80 >>> (i % 8).toUInt8

/-- Whether a bitfield has bit `i`. -/
def hasBit (bits : List UInt8) (i : UInt32) : Bool :=
  match bits[(i / 8).toNat]? with
  | none => false
  | some byte => byte &&& bitMask i != 0

structure PieceMap where
  count : UInt32
  bits : List UInt8
  size : bits.length = (count.toNat + 7) / 8

namespace PieceMap

def new (count : UInt32) : PieceMap where
  count := count
  bits := List.replicate ((count.toNat + 7) / 8) 0
  size := List.length_replicate

def set (m : PieceMap) (i : UInt32) : PieceMap :=
  if i < m.count then
    { m with
      bits := m.bits.modify (i / 8).toNat fun byte => byte ||| bitMask i
      size := by rw [List.length_modify, m.size] }
  else m

/-- `is_set`. -/
def isSet (m : PieceMap) (i : UInt32) : Bool := if i ≥ m.count then false else hasBit m.bits i

def unset (m : PieceMap) (i : UInt32) : PieceMap :=
  if i < m.count then
    { m with
      bits := m.bits.modify (i / 8).toNat fun byte => byte &&& ~~~bitMask i
      size := by rw [List.length_modify, m.size] }
  else m

/-- `to_bitfield`. -/
def toBitfield (m : PieceMap) : List UInt8 := m.bits

/-- `set_from_bitfield`. -/
def setFromBitfield (m : PieceMap) (bf : List UInt8) : PieceMap :=
  (List.range (8 * bf.length)).foldl (fun m idx =>
    if idx < m.count.toNat && hasBit bf (UInt32.ofNat idx) then m.set (UInt32.ofNat idx) else m) m

end PieceMap

/-! ## The disk -/

/-- What comes of a write: it is done, or it fails after so many bytes. -/
inductive Outcome
  | done
  | fail (written : Nat)

inductive IoError
  | disk
  | unexpectedEof

structure Disk (F : Type) where
  content : F → List UInt8
  /-- The outcomes of the writes to come. -/
  outcomes : List Outcome

section
variable {F : Type}

namespace Disk

/-- Seek, then `write_all`. -/
def write [DecidableEq F] (d : Disk F) (file : F) (offset : Nat) (data : List UInt8) :
    Disk F × Except IoError Unit :=
  let put (data : List UInt8) (outcomes : List Outcome) : Disk F :=
    { content := fun f => if f = file then writeAt 0 (d.content file) offset data else d.content f
      outcomes }
  match d.outcomes with
  | [] => (put data [], .ok ())
  | .done :: rest => (put data rest, .ok ())
  | .fail written :: rest => (put (data.take written) rest, .error .disk)

/-- `flush` and `sync_all` of the open files. -/
def sync : List (Option F) → Disk F → Disk F × Except IoError Unit
  | [], d => (d, .ok ())
  | none :: files, d => sync files d
  | some _ :: files, d =>
    match d.outcomes with
    | [] => sync files d
    | .done :: rest => sync files { d with outcomes := rest }
    | .fail _ :: rest => ({ d with outcomes := rest }, .error .disk)

end Disk

/-! ## The store -/

structure CachedPiece where
  index : UInt32
  data : List UInt8

structure PieceStore (F : Type) where
  layout : PieceLayout
  /-- The open files; nothing for a file that is not wanted. -/
  files : List (Option F)
  disk : Disk F
  map : PieceMap
  /-- The oldest entry comes first. -/
  writeCache : List CachedPiece
  writeCacheBytes : Nat
  cacheLimit : UInt64

/-- `is_single_file`. -/
def PieceLayout.isSingleFile (l : PieceLayout) : Bool := !l.multiFile && l.files.length == 1

namespace PieceStore

/-- `open`; `resolve` gives the file that a path below the root leads to. -/
def openAt (resolve : List String → F) (name : String) (layout : PieceLayout)
    (wanted : Option (List Nat)) (disk : Disk F) : Option (PieceStore F) := do
  let count ← layout.pieceCount
  let isWanted (fi : Nat) : Bool := match wanted with
    | none => true
    | some indices => indices.contains fi
  some
    { layout
      files := layout.files.mapIdx fun fi f =>
        if isWanted fi then
          some (resolve (if layout.isSingleFile then [name] else name :: f.path))
        else none
      disk
      map := .new count
      writeCache := []
      writeCacheBytes := 0
      cacheLimit := 0 }

/-- `cache_get`. -/
def cacheGet (s : PieceStore F) (index : UInt32) : Option (List UInt8) :=
  (s.writeCache.find? fun c => c.index = index).map CachedPiece.data

/-- The loop of `write_piece_direct`, after `written` bytes of `data`. -/
def writeSegments [DecidableEq F] (files : List (Option F)) (data : List UInt8) :
    Nat → List Segment → Disk F → Option (Disk F × Except IoError Unit)
  | _, [], d => some (d, .ok ())
  | written, seg :: segs, d =>
    let next := written + seg.len.toNat
    if data.length < next then none
    else
      match files[seg.file]? with
      | none => none
      | some none => writeSegments files data next segs d
      | some (some file) =>
        match d.write file seg.offset.toNat ((data.drop written).take seg.len.toNat) with
        | (d, .error e) => some (d, .error e)
        | (d, .ok ()) => writeSegments files data next segs d

/-- `write_piece_direct`. -/
def writePieceDirect [DecidableEq F] (s : PieceStore F) (index : UInt32) (data : List UInt8) :
    Option (PieceStore F × Except IoError Unit) := do
  let segs ← s.layout.pieceSegments index
  let (disk, result) ← writeSegments s.files data 0 segs s.disk
  some ({ s with disk }, result)

/-- The loop of `flush_write_cache` and `evict_to_limit`: as long as `more` holds of the byte
counter, the oldest of the entries leaves the cache for the disk, and comes back if it fails. -/
def drain [DecidableEq F] (more : Nat → Bool) :
    List CachedPiece → PieceStore F → Option (PieceStore F × Except IoError Unit)
  | [], s => some ({ s with writeCache := [] }, .ok ())
  | oldest :: rest, s =>
    if more s.writeCacheBytes then
      let popped := { s with writeCacheBytes := s.writeCacheBytes - oldest.data.length }
      match popped.writePieceDirect oldest.index oldest.data with
      | none => none
      | some (s, .error e) =>
        some
          ({ s with
              writeCache := oldest :: rest
              writeCacheBytes := s.writeCacheBytes + oldest.data.length },
            .error e)
      | some (s, .ok ()) => drain more rest s
    else some ({ s with writeCache := oldest :: rest }, .ok ())

/-- `flush_write_cache`. -/
def flushWriteCache [DecidableEq F] (s : PieceStore F) :
    Option (PieceStore F × Except IoError Unit) :=
  drain (fun _ => true) s.writeCache s

/-- `evict_to_limit`. -/
def evictToLimit [DecidableEq F] (s : PieceStore F) :
    Option (PieceStore F × Except IoError Unit) :=
  drain (fun bytes => bytes > s.cacheLimit.toNat) s.writeCache s

/-- `set_write_cache_limit`. -/
def setWriteCacheLimit [DecidableEq F] (s : PieceStore F) (bytes : UInt64) :
    Option (PieceStore F × Except IoError Unit) :=
  evictToLimit { s with cacheLimit := bytes }

/-- Removes the first entry of a piece. -/
def dropEntry (s : PieceStore F) (index : UInt32) : PieceStore F :=
  match s.writeCache.find? fun c => c.index = index with
  | none => s
  | some old =>
    { s with
      writeCache := s.writeCache.eraseP fun c => c.index = index
      writeCacheBytes := s.writeCacheBytes - old.data.length }

/-- `write_piece`. -/
def writePiece [DecidableEq F] (s : PieceStore F) (index : UInt32) (data : List UInt8) :
    Option (PieceStore F × Except IoError Unit) :=
  if s.cacheLimit = 0 || data.length > s.cacheLimit.toNat then s.writePieceDirect index data
  else
    let s := s.dropEntry index
    evictToLimit
      { s with
        writeCache := s.writeCache ++ [{ index, data }]
        writeCacheBytes := s.writeCacheBytes + data.length }

/-- `flush_all`. -/
def flushAll [DecidableEq F] (s : PieceStore F) :
    Option (PieceStore F × Except IoError Unit) := do
  let (s, result) ← s.flushWriteCache
  match result with
  | .error e => some (s, .error e)
  | .ok () =>
    let (disk, result) := Disk.sync s.files s.disk
    some ({ s with disk }, result)

/-- The parts of a cached piece that lie in open files. -/
def cachedSegments (files : List (Option F)) (cached : List UInt8) :
    Nat → List Segment → Option (List UInt8)
  | _, [] => some []
  | written, seg :: segs => do
    let next := written + seg.len.toNat
    let part := (cached.take next).drop written
    let file ← files[seg.file]?
    let rest ← cachedSegments files cached next segs
    some (if file.isNone then rest else part ++ rest)

/-- The parts of a piece that lie in open files, from the disk. -/
def readSegments (files : List (Option F)) (content : F → List UInt8) :
    List Segment → Option (Except IoError (List UInt8))
  | [] => some (.ok [])
  | seg :: segs => do
    let file ← files[seg.file]?
    match file with
    | none => readSegments files content segs
    | some file =>
      match readAt (content file) seg.offset.toNat seg.len.toNat with
      | none => some (.error .unexpectedEof)
      | some part => (readSegments files content segs).map fun rest => rest.map (part ++ ·)

/-- `read_piece`. -/
def readPiece (s : PieceStore F) (index : UInt32) : Option (Except IoError (List UInt8)) := do
  let segs ← s.layout.pieceSegments index
  match s.cacheGet index with
  | some cached => (cachedSegments s.files cached 0 segs).map .ok
  | none => readSegments s.files s.disk.content segs

/-- The loop of `read_block` over the files from number `fi` on, for a cached piece. -/
def cachedBlock (files : List (Option F)) (cached : List UInt8)
    (pieceStart blockStart blockEnd : UInt64) :
    Nat → List FileLayout → Option (List UInt8)
  | _, [] => some []
  | fi, f :: layout => do
    let fEnd ← Checked.add f.offset f.length
    if blockEnd ≤ f.offset || blockStart ≥ fEnd then
      cachedBlock files cached pieceStart blockStart blockEnd (fi + 1) layout
    else
      let file ← files[fi]?
      let rest ← cachedBlock files cached pieceStart blockStart blockEnd (fi + 1) layout
      if file.isNone then some rest
      else
        let rel ← Checked.sub (max blockStart f.offset) pieceStart
        let segLen ← Checked.sub (min blockEnd fEnd) (max blockStart f.offset)
        if rel.toNat ≥ cached.length then some rest
        else some ((cached.take (rel.toNat + segLen.toNat)).drop rel.toNat ++ rest)

/-- The loop of `read_block` over the files from number `fi` on, for a piece on the disk. -/
def diskBlock (files : List (Option F)) (content : F → List UInt8)
    (blockStart blockEnd : UInt64) :
    Nat → List FileLayout → Option (Except IoError (List UInt8))
  | _, [] => some (.ok [])
  | fi, f :: layout => do
    let fEnd ← Checked.add f.offset f.length
    match ← clip blockStart blockEnd f.offset fEnd with
    | none => diskBlock files content blockStart blockEnd (fi + 1) layout
    | some (segStart, segLen) =>
      match ← files[fi]? with
      | none => diskBlock files content blockStart blockEnd (fi + 1) layout
      | some file =>
        match readAt (content file) segStart.toNat segLen.toNat with
        | none => some (.error .unexpectedEof)
        | some part =>
          (diskBlock files content blockStart blockEnd (fi + 1) layout).map fun rest =>
            rest.map (part ++ ·)

/-- `read_block`. -/
def readBlock (s : PieceStore F) (index start length : UInt32) :
    Option (Except IoError (List UInt8)) := do
  let pieceStart ← Checked.mul index.toUInt64 s.layout.pieceLength
  let blockStart ← Checked.add pieceStart start.toUInt64
  let blockEnd ← Checked.add blockStart length.toUInt64
  match s.cacheGet index with
  | some cached =>
    (cachedBlock s.files cached pieceStart blockStart blockEnd 0 s.layout.files).map .ok
  | none => diskBlock s.files s.disk.content blockStart blockEnd 0 s.layout.files

/-- `mark_done`. -/
def markDone (s : PieceStore F) (index : UInt32) : PieceStore F :=
  { s with map := s.map.set index }

/-- `mark_all_done`. -/
def markAllDone (s : PieceStore F) : PieceStore F :=
  { s with map := (List.range s.map.count.toNat).foldl (fun m i => m.set (UInt32.ofNat i)) s.map }

/-- `set_bitfield`. -/
def setBitfield (s : PieceStore F) (bf : List UInt8) : PieceStore F :=
  if bf.length = (s.map.count.toNat + 7) / 8 then { s with map := s.map.setFromBitfield bf } else s

def bitfield (s : PieceStore F) : List UInt8 := s.map.toBitfield

/-- `durable_bitfield`. -/
def durableBitfield (s : PieceStore F) : List UInt8 :=
  if s.cacheLimit = 0 || s.writeCache.isEmpty then s.bitfield
  else (s.writeCache.foldl (fun m c => m.unset c.index) s.map).toBitfield

end PieceStore

/-! ## Calls -/

inductive Op
  | write (index : UInt32) (data : List UInt8)
  | setLimit (bytes : UInt64)
  | flushAll
  | readPiece (index : UInt32)
  | readBlock (index start length : UInt32)
  | markDone (index : UInt32)
  | markAllDone
  | setBitfield (bf : List UInt8)

/-- A call: the store after it and what it returns, which is no bytes for the calls that are no
reads. -/
def PieceStore.call [DecidableEq F] (s : PieceStore F) :
    Op → Option (PieceStore F × Except IoError (List UInt8))
  | .write index data => (s.writePiece index data).map fun r => (r.1, r.2.map fun _ => [])
  | .setLimit bytes => (s.setWriteCacheLimit bytes).map fun r => (r.1, r.2.map fun _ => [])
  | .flushAll => s.flushAll.map fun r => (r.1, r.2.map fun _ => [])
  | .readPiece index => (s.readPiece index).map fun r => (s, r)
  | .readBlock index start length => (s.readBlock index start length).map fun r => (s, r)
  | .markDone index => some (s.markDone index, .ok [])
  | .markAllDone => some (s.markAllDone, .ok [])
  | .setBitfield bf => some (s.setBitfield bf, .ok [])

end

end XferRust.Storage
