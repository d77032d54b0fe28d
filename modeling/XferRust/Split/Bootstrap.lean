import XferRust.Lib.StableSort
import XferRust.Lib.Word

/-! # The split download's writer: data model and start

The state of the writer thread of `split.rs` and the start of a run: what `bootstrap` makes of
the length of the partial file and of the control file.  Instants are nanoseconds.  Integer
arithmetic wraps, as in the release build.  The errors of opening and measuring the file are
not modelled: without a file there is no writer.
-/
namespace XferRust.Split

/-! ## Constants -/

/-- `PARK_MS`. -/
def parkMs : UInt64 := 250
/-- `ENDGAME_THRESHOLD`. -/
def endgameThreshold : UInt64 := 64 * 1024 * 1024
/-- `ENDGAME_MIN_SPLIT`. -/
def endgameMinSplit : UInt64 := 64 * 1024
/-- `SEG_LEASE`, in nanoseconds. -/
def segLease : Nat := 4000000000
/-- `HANDOFF_WHOLE_MAX`. -/
def handoffWholeMax : UInt64 := 4 * 1024 * 1024
/-- `HANDOFF_MIN`. -/
def handoffMin : UInt64 := 32 * 1024
/-- `STALL_TIMEOUT`, in nanoseconds. -/
def stallTimeout : Nat := 15000000000
/-- `CTRL_SAVE_INTERVAL`, in nanoseconds. -/
def ctrlSaveInterval : Nat := 1000000000

/-! ## Data -/

/-- `HttpError`. -/
inductive HttpError
  | connect (msg : String)
  | timeout
  | http (status : UInt16)
  | protocol (msg : String)
  | shortRead
  | notSplittable (msg : String)
  | notPlaylist
  | notFlv
  | io (msg : String)
  | cancelled

/-- What the writer reads of `AdaptiveConfig`. -/
structure AdaptiveConfig where
  maxConnections : Nat

/-- What the writer reads of `SplitOptions`, with the bounds `split_options` of the manager
clamps its values to. -/
structure SplitOptions where
  connections : Nat
  minSplitSize : UInt64
  adaptive : Option AdaptiveConfig
  connections_pos : 1 ≤ connections
  connections_le : connections ≤ 128
  minSplit_ge : 65536 ≤ minSplitSize.toNat
  minSplit_le : minSplitSize.toNat ≤ 1073741824

/-- `Seg`: a piece of the file. -/
structure Seg where
  start : UInt64
  /-- The declared end; steals, handoffs and shrinks move it down. -/
  end_ : UInt64
  /-- The watermark, relative to `start`. -/
  written : UInt64
  done : Bool
  queued : Bool
  /-- How many workers are reading this segment. -/
  holders : Nat
  lastProgress : Nat
  /-- The end the workers see. -/
  endShared : UInt64

/-- The bytes a segment still lacks. -/
def Seg.remaining (s : Seg) : UInt64 := s.end_ - s.start - s.written

/-- A segment nothing has been written of. -/
def Seg.fresh (start end_ : UInt64) (now : Nat) : Seg :=
  { start, end_, written := 0, done := false, queued := true, holders := 0, lastProgress := now
    endShared := end_ }

/-- `CtrlSeg`. -/
structure CtrlSeg where
  s : UInt64
  w : UInt64
  e : UInt64
  deriving DecidableEq

/-- `CtrlFile`. -/
structure CtrlFile where
  v : UInt32
  total : UInt64
  base : UInt64
  url : String
  segs : List CtrlSeg
  deriving DecidableEq

/-- `Writer`. -/
structure Writer where
  url : String
  total : UInt64
  /-- The prefix of the file that was there before the segments. -/
  base : UInt64
  segs : List Seg
  queue : List Nat
  /-- The bytes still to be written. -/
  todo : UInt64
  alive : Nat
  fatal : Option HttpError
  finished : Bool
  /-- `stats.completed`. -/
  completed : UInt64
  lastSave : Nat
  opts : SplitOptions
  adaptiveEnabled : Bool
  desiredWorkers : Nat
  lastProgress : Nat
  /-- `pieces`: the ranges given to `add_range`, offset and length, oldest first. -/
  pieces : List (UInt64 × UInt64)

/-! ## Reading the control file -/

/-- `load_ctrl`: the control file's bytes, if it can be read, through the JSON parser. -/
def loadCtrl (parse : List UInt8 → Option CtrlFile) (bytes : Option (List UInt8)) :
    Option CtrlFile :=
  match bytes.bind parse with
  | some c => if c.v = 1 then some c else none
  | none => none

/-- The checks of `bootstrap` on total and watermarks.  A segment without progress may start
beyond the end of the partial file. -/
def ctrlUsable (total fileLen : UInt64) (c : CtrlFile) : Bool :=
  c.total = total && c.segs.all fun s => s.w = 0 || s.s + s.w ≤ fileLen

/-- The nonempty segments of a control file in ascending order. -/
def sortedSegs (c : CtrlFile) : List CtrlSeg :=
  StableSort.sortByKey (fun s => s.s.toNat) (c.segs.filter fun s => s.e > s.s)

/-- The loop of `bootstrap` over the sorted segments: each starts where the last one ended,
and the last one ends at `total`. -/
def tiledFrom (total : UInt64) : UInt64 → List CtrlSeg → Bool
  | cursor, [] => cursor = total
  | cursor, s :: segs => if s.s ≠ cursor || s.e ≤ s.s then false else tiledFrom total s.e segs

/-- The base and the segments `bootstrap` takes over from a control file, if it accepts it. -/
def acceptCtrl (total fileLen : UInt64) (loaded : Option CtrlFile) :
    Option (UInt64 × List CtrlSeg) :=
  match loaded with
  | none => none
  | some c =>
    if ctrlUsable total fileLen c then
      let sorted := sortedSegs c
      if !sorted.isEmpty && tiledFrom total (min c.base total) sorted then
        some (min c.base total, sorted)
      else none
    else none

/-! ## The segment table at the start -/

/-- A segment taken over from the control file. -/
def recoverSeg (now : Nat) (s : CtrlSeg) : Seg :=
  let len := s.e - s.s
  let written := min s.w len
  let done := written ≥ len
  { start := s.s, end_ := s.e, written, done, queued := !done, holders := 0, lastProgress := now
    endShared := s.e }

/-- The number of segments a range of `remain` bytes is cut into. -/
def initialCount (opts : SplitOptions) (remain : UInt64) : Nat :=
  let workers := max opts.connections 1
  let byMin := max ((remain.toNat + opts.minSplitSize.toNat - 1) / opts.minSplitSize.toNat) 1
  min (max byMin 1) (workers * 2)

/-- The end of the `i`-th of `nseg` segments.  The product wraps. -/
def cutPoint (base remain : UInt64) (nseg i : Nat) : UInt64 :=
  base + remain * UInt64.ofNat i / UInt64.ofNat nseg

/-- The segments of a run without a usable control file. -/
def initialSegs (opts : SplitOptions) (base remain : UInt64) (now : Nat) : List Seg :=
  if remain > 0 then
    let nseg := initialCount opts remain
    (List.range nseg).map fun i =>
      Seg.fresh (cutPoint base remain nseg i) (cutPoint base remain nseg (i + 1)) now
  else []

/-- `rebuild_queue`. -/
def rebuildQueue (segs : List Seg) : List Nat :=
  (List.range segs.length).filter fun i => (segs[i]?).any fun s => s.queued && !s.done

/-- A subtraction that stops at zero. -/
def satSub (a b : UInt64) : UInt64 := if b ≤ a then a - b else 0

/-- What `bootstrap` makes of a base and a segment table. -/
def Writer.ofTable (url : String) (total : UInt64) (opts : SplitOptions) (now : Nat)
    (base : UInt64) (segs : List Seg) : Writer :=
  let todo := Word.sum Seg.remaining segs
  { url, total, base, segs, queue := rebuildQueue segs, todo, alive := 0, fatal := none
    finished := todo = 0
    completed := base + satSub (total - base) todo
    lastSave := now - ctrlSaveInterval, opts
    adaptiveEnabled := opts.adaptive.isSome
    desiredWorkers := 0
    lastProgress := now
    pieces := (if base > 0 then [(0, base)] else []) ++
      (segs.filter fun s => s.written > 0).map fun s => (s.start, s.written) }

/-- `bootstrap` on a partial file of `fileLen` bytes, with the control file that
`load_ctrl` returned. -/
def bootstrap (url : String) (total : UInt64) (opts : SplitOptions) (fileLen : UInt64)
    (loaded : Option CtrlFile) (now : Nat) : Writer :=
  match acceptCtrl total fileLen loaded with
  | some (base, sorted) => .ofTable url total opts now base (sorted.map (recoverSeg now))
  | none =>
    let base := min fileLen total
    .ofTable url total opts now base (initialSegs opts base (total - base) now)

/-- The length of the data file after `bootstrap`: without a usable control file, a file
longer than the resource is cut. -/
def bootstrapLen (total fileLen : UInt64) (loaded : Option CtrlFile) : UInt64 :=
  match acceptCtrl total fileLen loaded with
  | some _ => fileLen
  | none => if fileLen > total then total else fileLen

/-- `spawn_count`. -/
def Writer.spawnCount (w : Writer) : Nat := min (max w.opts.connections 1) (max w.segs.length 1)

end XferRust.Split
