import Mathlib.Data.List.Basic

/-! # Media playlists

A playlist is read line by line (`parse_media`).  What a line says on its own, its attributes and
the addresses in it, is taken as read; the loop decides what it means behind the lines before it:
the number and the key of a segment, its byte range, and the initialisation segment that it
belongs to.  Durations are in milliseconds, as a recorder adds them up.
-/
namespace XferRust.Playlist

/-- `KeyMethod`. -/
inductive KeyMethod where
  | none
  | aes128
  | aes256
  | aes128Ctr
  | sampleAes
  | sampleAesCtr
  deriving DecidableEq

/-- `KeyFormat`. -/
inductive KeyFormat where
  | identity
  | fairPlay
  | widevine
  | playReady
  | other (name : String)
  deriving DecidableEq

structure SegmentKey where
  url : String
  iv : List UInt8
  method : KeyMethod
  keyFormat : KeyFormat
  deriving DecidableEq

/-- A segment, or an initialisation segment (`isMap`). -/
structure Segment where
  url : String
  /-- Offset and length. -/
  range : Option (Nat × Nat) := none
  key : Option SegmentKey := none
  size : Option Nat := none
  millis : Nat := 0
  seq : Nat
  isMap : Bool := false
  deriving DecidableEq

/-- `iv_from_sequence`: the number in big-endian order. -/
def ivFromSequence (seq : Nat) : List UInt8 :=
  List.replicate 8 0 ++
    [56, 48, 40, 32, 24, 16, 8, 0].map fun shift => UInt8.ofNat (seq / Nat.pow 2 shift)

/-- A key whose vector may have been left out. -/
structure PendingKey where
  url : String
  iv : Option (List UInt8)
  method : KeyMethod
  keyFormat : KeyFormat
  deriving DecidableEq

def PendingKey.resolve (k : PendingKey) (sequence : Nat) : SegmentKey where
  url := k.url
  iv := k.iv.getD (ivFromSequence sequence)
  method := k.method
  keyFormat := k.keyFormat

/-- A line of a playlist, its attributes read and its addresses resolved. -/
inductive Line where
  | mediaSequence (n : Nat)
  /-- `EXT-X-KEY`; none for a method without a key. -/
  | key (k : Option PendingKey)
  /-- `EXT-X-MAP`, with the range as offset and length. -/
  | map (url : String) (range : Option (Nat × Nat))
  | extinf (millis : Nat)
  /-- `EXT-X-BYTERANGE`. -/
  | byteRange (len : Nat) (off : Option Nat)
  | part (url : String) (millis : Nat)
  | endList
  | gap
  | uri (url : String)
  /-- A line that the whole playlist is refused for. -/
  | fatal (reason : String)
  | other
  deriving DecidableEq

/-- What the loop of `parse_media` carries from line to line. -/
structure MediaParser where
  segments : List Segment := []
  init : Option Segment := none
  fatal : Option String := none
  key : Option PendingKey := none
  sequence : Nat := 0
  nextRange : Option (Nat × Nat) := none
  nextMillis : Nat := 0
  lastRangeEnd : Option (String × Nat) := none
  endlist : Bool := false
  currentMap : Option Segment := none
  nextIsGap : Bool := false
  parts : List Segment := []

/-- The offset that stands for one left out (`u64::MAX`). -/
def noOffset : Nat := 18446744073709551615

namespace MediaParser

/-- A line with `EXT-X-MAP`. -/
def addMap (m : MediaParser) (url : String) (range : Option (Nat × Nat)) : MediaParser :=
  let seg : Segment :=
    { url, range, size := range.map Prod.snd, seq := m.sequence, isMap := true }
  match m.currentMap with
  | some prev =>
    if prev.url = seg.url ∧ prev.range = seg.range then m
    else { m with currentMap := some seg, segments := m.segments ++ [seg] }
  | none => { m with currentMap := some seg, init := some seg }

/-- Where a byte range starts: what leaves the offset out goes on behind the last range of the
same address. -/
def rangeStart (m : MediaParser) (url : String) (off : Nat) : Nat :=
  if off = noOffset then
    match m.lastRangeEnd with
    | some (u, last) => if u = url then last else 0
    | none => 0
  else off

/-- A line with an address. -/
def addUri (m : MediaParser) (url : String) : MediaParser :=
  if m.nextIsGap then
    { m with
      nextMillis := 0, nextIsGap := false, nextRange := none, sequence := m.sequence + 1 }
  else
    let range := m.nextRange.map fun r => (m.rangeStart url r.2, r.1)
    let seg : Segment :=
      { url, range, key := m.key.map (·.resolve m.sequence), size := range.map Prod.snd,
        millis := m.nextMillis, seq := m.sequence }
    { m with
      segments := m.segments ++ [seg], nextMillis := 0, nextRange := none,
      lastRangeEnd := (range.map fun r => (url, r.1 + r.2)).or m.lastRangeEnd,
      sequence := m.sequence + 1 }

/-- One line of the loop of `parse_media`. -/
def line (m : MediaParser) : Line → MediaParser
  | .mediaSequence n => { m with sequence := n }
  | .key k => { m with key := k }
  | .map url range => m.addMap url range
  | .extinf millis => { m with nextMillis := millis }
  | .byteRange len off => { m with nextRange := some (len, off.getD noOffset) }
  | .part url millis =>
    let seg : Segment :=
      { url, key := m.key.map (·.resolve m.sequence), millis, seq := m.sequence }
    { m with parts := m.parts ++ [seg] }
  | .endList => { m with endlist := true }
  | .gap => { m with nextIsGap := true }
  | .uri url => m.addUri url
  | .fatal reason => { m with fatal := some reason }
  | .other => m

end MediaParser

/-- A plan, or a snapshot of one that is still growing. -/
structure PlaylistPlan where
  source : String := ""
  init : Option Segment := none
  segments : List Segment
  /-- No `EXT-X-ENDLIST`. -/
  live : Bool := true
  /-- There are parts only. -/
  partsOnly : Bool := false

/-- `segment_count`. -/
def PlaylistPlan.segmentCount (plan : PlaylistPlan) : Nat :=
  plan.segments.length + plan.init.toList.length

/-- `parse_media` behind the reading of the lines, and the plan that `fetch_plan` makes of it; none
when a line makes the whole playlist unusable or there is nothing to load. -/
def parseMedia (source : String) (lines : List Line) : Option PlaylistPlan :=
  let m := lines.foldl MediaParser.line {}
  let init := match m.segments.head? with
    | some first => m.init.map fun seg => { seg with seq := first.seq }
    | none => m.init
  let onlyParts := m.segments.isEmpty && !m.parts.isEmpty
  let plan : PlaylistPlan :=
    { source, init, segments := if onlyParts then m.parts else m.segments, live := !m.endlist,
      partsOnly := onlyParts }
  if m.fatal.isSome || plan.segmentCount = 0 then none else some plan

end XferRust.Playlist
