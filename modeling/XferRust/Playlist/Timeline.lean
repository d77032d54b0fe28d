import XferRust.Lib.BigEndian
import XferRust.Lib.Faults
import XferRust.Lib.SortedMap

/-! # The time line of a product

A product that was recorded begins at the time of its source.  When it is complete, the times of
its fragments are moved so that the earliest track begins at 0: a first pass over the file finds
the time base of each track and its first time, a second one rewrites the times in their place.

The product is the list of its bytes; reading and writing it does not fail.  Times in seconds are
floating-point numbers, which are a parameter (`Seconds`).
-/
namespace XferRust.Playlist
open Guarded SortedMap

/-! ## Boxes -/

/-- `MAX_BOX_READ`. -/
def maxBoxRead : Nat := 8388608

/-- `b"ftyp"` and so on. -/
abbrev ftyp : List UInt8 := [102, 116, 121, 112]
abbrev styp : List UInt8 := [115, 116, 121, 112]
abbrev moof : List UInt8 := [109, 111, 111, 102]
abbrev moov : List UInt8 := [109, 111, 111, 118]
abbrev sidx : List UInt8 := [115, 105, 100, 120]
abbrev free : List UInt8 := [102, 114, 101, 101]
abbrev traf : List UInt8 := [116, 114, 97, 102]
abbrev tfhd : List UInt8 := [116, 102, 104, 100]
abbrev tfdt : List UInt8 := [116, 102, 100, 116]
abbrev trak : List UInt8 := [116, 114, 97, 107]
abbrev tkhd : List UInt8 := [116, 107, 104, 100]
abbrev mdia : List UInt8 := [109, 100, 105, 97]
abbrev mdhd : List UInt8 := [109, 100, 104, 100]

/-- A sum of type `usize`. -/
def addSize (a b : Nat) : Guarded String Nat :=
  if a + b < 18446744073709551616 then .ok (a + b) else .error .panic

/-- `be32`. -/
def be32 (b : List UInt8) : Guarded String Nat := do
  let bytes ← slice b 0 4
  .ok (BigEndian.toNat bytes)

/-- `be64`. -/
def be64 (b : List UInt8) : Guarded String Nat := do
  let bytes ← slice b 0 8
  .ok (BigEndian.toNat bytes)

/-- A box that `next_box` found. -/
structure BoxAt where
  off : Nat
  size : Nat
  typ : List UInt8

/-- `read_exact` of so many bytes at a place. -/
def readExact (file : List UInt8) (off n : Nat) : Option (List UInt8) :=
  let bytes := (file.drop off).take n
  if bytes.length = n then some bytes else none

/-- `checked_add`. -/
def checkedAdd (a b : Nat) : Option Nat :=
  if a + b < 18446744073709551616 then some (a + b) else none

/-- The size of a box and the length of its head, by its size in 32 bits. -/
def boxSize (file : List UInt8) (off len size32 : Nat) : Option (Nat × Nat) :=
  if size32 = 1 then do
    let ext ← readExact file (off + 8) 8
    some (BigEndian.toNat ext, 16)
  else if size32 = 0 then
    if len < off then none else some (len - off, 8)
  else some (size32, 8)

/-- `next_box`. -/
def nextBox (file : List UInt8) (off len : Nat) : Option BoxAt := do
  let front ← checkedAdd off 8
  if len < front then none
  else do
    let hdr ← readExact file off 8
    let head ← boxSize file off len (BigEndian.toNat (hdr.take 4))
    if head.1 < head.2 then none
    else do
      let next ← checkedAdd off head.1
      if len < next then none else some { off, size := head.1, typ := hdr.drop 4 }

/-- `read_box`. -/
def readBox (file : List UInt8) (off size : Nat) : Option (List UInt8) :=
  if maxBoxRead < size then none else readExact file off size

/-- `write_box`. -/
def writeBox (file : List UInt8) (off : Nat) (buf : List UInt8) : List UInt8 :=
  file.take off ++ buf ++ file.drop (off + buf.length)

/-- The size and the length of the head of a child, by its size in 32 bits; none at the end. -/
def childHead (buf : List UInt8) (stop p size32 : Nat) : Guarded String (Option (Nat × Nat)) :=
  if size32 = 1 then do
    let front ← addSize p 16
    if stop < front then .ok none
    else do
      let ext ← sliceFrom buf (p + 8)
      let total ← be64 ext
      .ok (some (total, 16))
  else if size32 = 0 then do
    let total ← sub stop p
    .ok (some (total, 8))
  else .ok (some (size32, 8))

/-- `walk_children`, from `p` on: what the closure keeps goes from one child to the next. -/
def walkChildren {σ : Type} (buf : List UInt8) (stop : Nat)
    (f : σ → List UInt8 → Nat → Guarded String σ) : Nat → Nat → σ → Guarded String σ
  | 0, _, _ => .error .endless
  | rounds + 1, p, s => do
    let front ← addSize p 8
    if stop < front then .ok s
    else do
      let rest ← sliceFrom buf p
      let size32 ← be32 rest
      let head ← childHead buf stop p size32
      match head with
      | none => .ok s
      | some (total, hdr) =>
        if total < hdr then .ok s
        else do
          let next ← addSize p total
          if stop < next then .ok s
          else do
            let child ← slice buf p next
            let s ← f s child p
            walkChildren buf stop f rounds next s

/-- `walk_children` over the content of a box. -/
def walkBox {σ : Type} (buf : List UInt8) (f : σ → List UInt8 → Nat → Guarded String σ) (s : σ) :
    Guarded String σ :=
  walkChildren buf buf.length f (buf.length + 1) 8 s

/-! ## Times and time bases -/

/-- A time, in a field of 64 bits or of 32. -/
def timeAt (v1 : Bool) (rest : List UInt8) : Guarded String Nat :=
  if v1 then be64 rest else be32 rest

/-- A `tfdt` that `tfdt_entries` found: where its time is in the `moof`, and in 64 bits or 32. -/
structure TfdtEntry where
  track : Nat
  off : Nat
  v1 : Bool
  val : Nat

/-- The closure of `tfdt_entries` for a child of a `traf`. -/
def trafChild (trafOff : Nat) (s : Option Nat × List TfdtEntry) (child : List UInt8)
    (childOff : Nat) : Guarded String (Option Nat × List TfdtEntry) := do
  let typ ← slice child 4 8
  if typ = tfhd then
    if 16 ≤ child.length then do
      let rest ← sliceFrom child 12
      let tid ← be32 rest
      .ok (some tid, s.2)
    else .ok s
  else if typ = tfdt then
    match s.1 with
    | none => .ok s
    | some track =>
      if child.length < 16 then .ok s
      else do
        let version ← index child 8
        let v1 := decide (version = 1)
        if v1 ∧ child.length < 20 then .ok s
        else do
          let rest ← sliceFrom child 12
          let val ← timeAt v1 rest
          let off ← addSize trafOff childOff
          let off ← addSize off 12
          .ok (s.1, s.2 ++ [{ track, off, v1, val := val }])
  else .ok s

/-- The closure of `tfdt_entries` for a child of the `moof`. -/
def moofChild (out : List TfdtEntry) (child : List UInt8) (childOff : Nat) :
    Guarded String (List TfdtEntry) := do
  let typ ← slice child 4 8
  if typ = traf then do
    let s ← walkBox child (trafChild childOff) (none, out)
    .ok s.2
  else .ok out

/-- `tfdt_entries`. -/
def tfdtEntries (buf : List UInt8) : Guarded String (List TfdtEntry) := walkBox buf moofChild []

/-- The version of a full box is 1. -/
def isVersion1 (child : List UInt8) : Guarded String Bool :=
  if 8 < child.length then do
    let version ← index child 8
    .ok (decide (version = 1))
  else .ok false

/-- A field of `tkhd` or `mdhd`, behind two times of 64 bits or of 32. -/
def behindTimes (child : List UInt8) : Guarded String (Option Nat) := do
  let v1 ← isVersion1 child
  let off := if v1 then 12 + 16 else 12 + 8
  if off + 4 ≤ child.length then do
    let rest ← sliceFrom child off
    let val ← be32 rest
    .ok (some val)
  else .ok none

/-- The closure of `parse_moov_tracks` for a child of `mdia`. -/
def mdiaChild (ts : Option Nat) (child : List UInt8) (_ : Nat) : Guarded String (Option Nat) := do
  let typ ← slice child 4 8
  if typ = mdhd then do
    let val ← behindTimes child
    .ok (val.or ts)
  else .ok ts

/-- The closure of `parse_moov_tracks` for a child of a `trak`: the id and the time base. -/
def trakChild (s : Option Nat × Option Nat) (child : List UInt8) (_ : Nat) :
    Guarded String (Option Nat × Option Nat) := do
  let typ ← slice child 4 8
  if typ = tkhd then do
    let val ← behindTimes child
    .ok (val.or s.1, s.2)
  else if typ = mdia then do
    let ts ← walkBox child mdiaChild s.2
    .ok (s.1, ts)
  else .ok s

/-- `HashMap<u32, _>`. -/
abbrev TrackMap (α : Type) := List (Nat × α)

/-- The closure of `parse_moov_tracks` for a child of the `moov`. -/
def moovChild (out : TrackMap Nat) (child : List UInt8) (_ : Nat) :
    Guarded String (TrackMap Nat) := do
  let typ ← slice child 4 8
  if typ = trak then do
    let s ← walkBox child trakChild (none, none)
    match s with
    | (some tid, some ts) => .ok (if 0 < ts then insertEntry tid ts out else out)
    | _ => .ok out
  else .ok out

/-- `parse_moov_tracks`. -/
def parseMoovTracks (buf : List UInt8) (out : TrackMap Nat) : Guarded String (TrackMap Nat) :=
  walkBox buf moovChild out

/-! ## The first pass -/

/-- What the first pass finds. -/
structure Scan where
  trackTs : TrackMap Nat
  firsts : TrackMap Nat
  moofs : Nat

/-- `or_insert`. -/
def orInsert (k v : Nat) (m : TrackMap Nat) : TrackMap Nat :=
  match lookup k m with
  | some _ => m
  | none => insertEntry k v m

/-- One box of the first pass. -/
def scanBox (file : List UInt8) (b : BoxAt) (s : Scan) : Guarded String Scan :=
  if b.typ = moov then
    match readBox file b.off b.size with
    | some buf => do
      let trackTs ← parseMoovTracks buf s.trackTs
      .ok { s with trackTs }
    | none => .ok s
  else if b.typ = moof then
    let s := { s with moofs := s.moofs + 1 }
    match readBox file b.off b.size with
    | some buf => do
      let entries ← tfdtEntries buf
      .ok { s with firsts := entries.foldl (fun m e => orInsert e.track e.val m) s.firsts }
    | none => .ok s
  else .ok s

/-- The loop of the first pass. -/
def scanLoop (file : List UInt8) (len : Nat) : Nat → Nat → Scan → Guarded String Scan
  | 0, _, _ => .error .endless
  | rounds + 1, off, s =>
    match nextBox file off len with
    | none => .ok s
    | some b => do
      let s ← scanBox file b s
      let off ← addSize b.off b.size
      scanLoop file len rounds off s

/-! ## The shift -/

/-- The numbers of type `f64`, as far as they are used. -/
structure Seconds (F : Type) where
  ofNat : Nat → F
  div : F → F → F
  min : F → F → F
  mul : F → F → F
  /-- `round() as u64`. -/
  roundU64 : F → Nat

section
variable {F : Type} (sec : Seconds F)

/-- `start_secs`: the least of the first times. -/
def startSecs (trackTs firsts : TrackMap Nat) : Option F :=
  firsts.foldl (fun start e =>
    match lookup e.1 trackTs with
    | none => start
    | some ts =>
      let s := sec.div (sec.ofNat e.2) (sec.ofNat ts)
      some (match start with
        | none => s
        | some x => sec.min x s)) none

/-- `base_by_track`. -/
def baseByTrack (trackTs firsts : TrackMap Nat) (start : F) : TrackMap Nat :=
  firsts.map fun e =>
    (e.1, ((lookup e.1 trackTs).map fun ts => sec.roundU64 (sec.mul start (sec.ofNat ts))).getD 0)

/-! ## The second pass -/

/-- The bytes of a time, in a field of 64 bits or of 32. -/
def timeBytes (v1 : Bool) (val : Nat) : List UInt8 :=
  if v1 then BigEndian.ofNat 8 val else (BigEndian.ofNat 8 val).drop 4

/-- The times of a `moof`, moved. -/
def patchMoof (bases : TrackMap Nat) (buf : List UInt8) : Guarded String (List UInt8) := do
  let entries ← tfdtEntries buf
  entries.foldlM (fun buf e =>
    let k := (lookup e.track bases).getD 0
    let new := e.val - k
    if new = e.val then .ok buf else overwrite buf e.off (timeBytes e.v1 new)) buf

/-- The time of a `sidx`, moved by the base of the track that it refers to. -/
def patchSidx (bases : TrackMap Nat) (buf : List UInt8) : Guarded String (List UInt8) :=
  if 24 ≤ buf.length then do
    let version ← index buf 8
    let v1 := decide (version = 1)
    if ¬v1 ∨ 28 ≤ buf.length then do
      let rest ← sliceFrom buf 12
      let refId ← be32 rest
      let rest ← sliceFrom buf 20
      let old ← timeAt v1 rest
      let k := (lookup refId bases).getD 0
      let new := old - k
      if new = old then .ok buf else overwrite buf 20 (timeBytes v1 new)
    else .ok buf
  else .ok buf

/-- One box of the second pass; one that has not changed is written back as it was, which the source
spares itself. -/
def patchBox (bases : TrackMap Nat) (b : BoxAt) (file : List UInt8) : Guarded String (List UInt8) :=
  if b.typ = moof then
    match readBox file b.off b.size with
    | some buf => do
      let buf ← patchMoof bases buf
      .ok (writeBox file b.off buf)
    | none => .ok file
  else if b.typ = sidx then
    match readBox file b.off b.size with
    | some buf => do
      let buf ← patchSidx bases buf
      .ok (writeBox file b.off buf)
    | none => .ok file
  else .ok file

/-- The loop of the second pass. -/
def patchLoop (bases : TrackMap Nat) (len : Nat) : Nat → Nat → List UInt8 →
    Guarded String (List UInt8)
  | 0, _, _ => .error .endless
  | rounds + 1, off, file =>
    match nextBox file off len with
    | none => .ok file
    | some b => do
      let file ← patchBox bases b file
      let off ← addSize b.off b.size
      patchLoop bases len rounds off file

/-- `normalize_fmp4`: the product afterwards. -/
def normalizeFmp4 (file : List UInt8) : Guarded String (List UInt8) := do
  let len := file.length
  let scan ← scanLoop file len (len + 1) 0 { trackTs := [], firsts := [], moofs := 0 }
  if scan.moofs = 0 ∨ scan.firsts = [] then .ok file
  else
    match startSecs sec scan.trackTs scan.firsts with
    | none => .ok file
    | some start =>
      let bases := baseByTrack sec scan.trackTs scan.firsts start
      if bases.all fun e => e.2 = 0 then .ok file else patchLoop bases len (len + 1) 0 file

/-- `normalize_product_timeline`. -/
def normalizeProductTimeline (file : List UInt8) : Guarded String (List UInt8) :=
  if file.length < 16 then .ok file
  else
    let head := file.take 376
    if 8 ≤ head.length ∧ (head.drop 4).take 4 ∈ [ftyp, styp, moof, moov, sidx, free] then
      normalizeFmp4 sec file
    else .ok file

end

end XferRust.Playlist
