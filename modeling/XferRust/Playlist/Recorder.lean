import XferRust.Lib.StepRun
import XferRust.Playlist.Live

/-! # The recorder of a live playlist

`record_playlist` is a loop: it splices what is ready, saves the control file now and then, starts
loads, looks whether the recording is over, and waits for the next event, which is a snapshot, the
result of a load, or the user.  When it leaves the loop it keeps the control file, or, at the end
of the stream, removes it; a later run goes on from it.  What a segment file holds before its load
is complete is left out, and so is what the user is shown.
-/
namespace XferRust.Playlist

/-- `SPLICE_BATCH_BYTES`. -/
def spliceBatchBytes : Nat := 33554432

/-- `CTRL_SAVE_INTERVAL`. -/
def ctrlSaveInterval : Nat := 1000

structure LiveOptions where
  /-- Between 1 and 64. -/
  conn : Nat
  stallTimeout : Nat
  reloadInterval : Nat

/-- The control file of a live recording. -/
structure LiveCtrl where
  url : String
  /-- `prefix`: how many segments were spliced. -/
  spliced : Nat
  bytes : Nat
  seq : Nat
  liveMs : Nat
  map : String

/-- How the loop is left. -/
inductive LiveExit where
  | ended
  | stalled
  | cancelled
  | failed

/-- A segment in the product. -/
structure Spliced where
  key : LiveKey
  seg : Segment
  data : List UInt8
  /-- Of a segment with media: the initialisation segment that it was declared with. -/
  declared : Option String

/-- The time that a segment adds to the recording. -/
def Spliced.millis (x : Spliced) : Nat :=
  match x.key with
  | .seg _ => x.seg.millis
  | _ => 0

/-- One run of `record_playlist`. -/
structure Session where
  /-- `plan.source`. -/
  source : String
  live : LiveState
  /-- What is being loaded. -/
  inflight : List LiveKey := []
  /-- What the sink has not written out. -/
  buffer : List UInt8 := []
  liveMs : Nat
  nextReloadAt : Nat
  reloadInflight : Bool := false
  lastSave : Option Nat := none
  dirty : Bool := false
  /-- By number: what the snapshot that brought it declares for it.  The code has no such table. -/
  declared : Nat → Option String
  exit : Option LiveExit := none

/-- The files, the run if there is one, and what was spliced into the product over all runs. -/
structure Recording where
  product : List UInt8 := []
  /-- The segment files, by number and whether it is an initialisation segment. -/
  files : Nat × Bool → Option (List UInt8) := fun _ => none
  ctrl : Option LiveCtrl := none
  spliced : List Spliced := []
  /-- What had been spliced when the control file was saved. -/
  saved : List Spliced := []
  now : Nat := 0
  session : Option Session := none

/-- `file_of`. -/
def LiveKey.file : LiveKey → Nat × Bool
  | .leadingMap => (0, true)
  | .map seq => (seq, true)
  | .seg seq => (seq, false)

/-- What may happen to a recording. -/
inductive LiveEvent where
  /-- `record_playlist` is called. -/
  | start (plan : PlaylistPlan)
  /-- The loop up to its wait; `flushed` when a save could write out the buffer. -/
  | turn (flushed : Bool)
  | snapshot (plan : PlaylistPlan)
  | snapshotFailed (gone : Bool)
  | loaded (key : LiveKey) (data : List UInt8)
  /-- An error that is not one of the disk. -/
  | loadFailed (key : LiveKey)
  | wait (ms : Nat)
  | cancel
  /-- The sink writes out a part of its buffer. -/
  | writeOut (bytes : Nat)
  /-- An error of the disk while a segment is spliced, behind so many of its bytes. -/
  | spliceFailed (bytes : Nat)
  /-- Another error of the disk. -/
  | diskFailed
  /-- Behind the loop; `flushed` when the sink could be flushed. -/
  | close (flushed : Bool)
  /-- The process is killed. -/
  | kill

section
variable (stableUrl : String → String) (opts : LiveOptions)

namespace Recording

/-- `sink.position()`. -/
def position (r : Recording) (s : Session) : Nat := r.product.length + s.buffer.length

/-- `live_ctrl_matches`. -/
def ctrlMatches (c : LiveCtrl) (plan : PlaylistPlan) : Bool :=
  c.url ≠ "" && stableUrl c.url = stableUrl plan.source

/-- The control file that a new run goes on from. -/
def resume (r : Recording) (plan : PlaylistPlan) : Option LiveCtrl :=
  r.ctrl.filter fun c => ctrlMatches stableUrl c plan && decide (c.bytes ≤ r.product.length)

/-- The state before the first snapshot is taken in: behind what was recorded, or at the first
segment of the plan. -/
def startLive (c : Option LiveCtrl) (plan : PlaylistPlan) (now : Nat) : LiveState :=
  match c with
  | some c =>
    let written := if c.map = "" then none else some c.map
    { headSeq := c.seq, writtenMap := written, mapSeen := written.toList, splicedTotal := c.spliced,
      lastNewAt := now, lastOkReload := now }
  | none =>
    { headSeq := (plan.segments.head?.map (·.seq)).getD 0, lastNewAt := now, lastOkReload := now }

/-- The beginning of `record_playlist`. -/
def start (r : Recording) (plan : PlaylistPlan) : Recording :=
  let c := r.resume stableUrl plan
  let before := startLive c plan r.now
  let live := before.apply stableUrl plan r.now
  { r with
    product := r.product.take ((c.map (·.bytes)).getD 0)
    files := fun f => if c.isSome ∧ live.headSeq ≤ f.1 then r.files f else none
    spliced := if c.isSome then r.saved else []
    session := some
      { source := plan.source, live, liveMs := (c.map (·.liveMs)).getD 0,
        nextReloadAt := r.now + opts.reloadInterval,
        declared := before.declareNew stableUrl plan fun _ => none } }

/-- `ctrl_of`. -/
def ctrlOf (r : Recording) (s : Session) : LiveCtrl where
  url := s.source
  spliced := s.live.splicedTotal
  bytes := r.position s
  seq := s.live.headSeq
  liveMs := s.liveMs
  map := s.live.writtenMap.getD ""

/-- What the product gets of an item. -/
def piece (r : Recording) (s : Session) (key : LiveKey) (it : LiveItem) : Spliced where
  key := key
  seg := it.seg
  data := (r.files key.file).getD []
  declared := match key with
    | .seg n => s.declared n
    | _ => none

/-- One segment goes from its file into the product. -/
def spliceOne (r : Recording) (s : Session) : Option (Recording × Session × Nat) :=
  (s.live.spliceOne stableUrl).map fun (key, it, live) =>
    let x := r.piece s key it
    ({ r with files := Function.update r.files key.file none, spliced := r.spliced ++ [x] },
      { s with live, buffer := s.buffer ++ x.data, liveMs := s.liveMs + x.millis, dirty := true },
      x.data.length)

/-- The segments that are ready are spliced, until one batch is full; `rounds` bounds the loop. -/
def spliceBatch : Nat → Recording → Session → Nat → Recording × Session
  | 0, r, s, _ => (r, s)
  | rounds + 1, r, s, moved =>
    match r.spliceOne stableUrl s with
    | some (r', s', bytes) =>
      if spliceBatchBytes ≤ moved + bytes then (r', s')
      else spliceBatch rounds r' s' (moved + bytes)
    | none => (r, s)

/-- The buffer is written out if it can be, and the control file is saved. -/
def saveNow (r : Recording) (s : Session) (flushed : Bool) : Recording × Session :=
  if flushed then
    ({ r with product := r.product ++ s.buffer, ctrl := some (r.ctrlOf s), saved := r.spliced },
      { s with buffer := [] })
  else ({ r with ctrl := some (r.ctrlOf s), saved := r.spliced }, s)

/-- The control file is saved when something was spliced since, and not too often. -/
def saveDue (r : Recording) (s : Session) (flushed : Bool) : Recording × Session :=
  if s.dirty ∧ (s.lastSave.all fun t => decide (t + ctrlSaveInterval ≤ r.now)) then
    let (r, s) := r.saveNow s flushed
    (r, { s with dirty := false, lastSave := some r.now })
  else (r, s)

/-- Loads are started. -/
def dispatch (now : Nat) : Nat → Session → Session
  | 0, s => s
  | room + 1, s =>
    match s.live.takeForDispatch now with
    | some (key, live) => dispatch now room { s with live, inflight := s.inflight ++ [key] }
    | none => s

/-- Whether the recording is over. -/
def exitTest (now : Nat) (s : Session) : Option LiveExit :=
  if s.live.streamEnd && s.live.drained then some .ended
  else if s.inflight.isEmpty && s.live.blockedFailed &&
      (s.live.streamEnd || decide (s.live.lastNewAt + max opts.stallTimeout 30000 ≤ now)) then
    some .failed
  else if !s.live.streamEnd && decide (opts.stallTimeout ≠ 0) && s.live.drained &&
      decide (now < s.live.lastOkReload + opts.reloadInterval * 4) &&
      decide (s.live.lastNewAt + opts.stallTimeout ≤ now) then
    some .stalled
  else none

/-- A snapshot is asked for when it is time. -/
def askSnapshot (now : Nat) (s : Session) : Session :=
  if s.reloadInflight = false ∧ s.live.reloadStopped = false ∧ s.nextReloadAt ≤ now then
    { s with reloadInflight := true }
  else s

/-- How many segments are kept. -/
def kept (s : LiveState) : Nat :=
  s.leadingMap.toList.length + s.maps.entries.length + s.segs.entries.length

/-- The loop up to its wait. -/
def turn (r : Recording) (s : Session) (flushed : Bool) : Recording :=
  let (r, s) := spliceBatch stableUrl (kept s.live + 1) r s 0
  let (r, s) := r.saveDue s flushed
  let s := dispatch r.now (opts.conn - s.inflight.length) s
  match exitTest opts r.now s with
  | some e => { r with session := some { s with exit := some e } }
  | none => { r with session := some (askSnapshot r.now s) }

/-- When the next snapshot is asked for after one that could not be loaded. -/
def backoff (failStreak : Nat) : Nat := min (Nat.pow 2 (min failStreak 4)) 15 * 1000

/-- An event of the wait. -/
def onSession (r : Recording) (s : Session) : LiveEvent → Option Recording
  | .turn flushed => some (r.turn stableUrl opts s flushed)
  | .snapshot plan =>
    if s.reloadInflight then
      some { r with
        session := some
          { s with
            live := s.live.reloaded stableUrl plan r.now, reloadInflight := false,
            nextReloadAt := r.now + opts.reloadInterval,
            declared :=
              if plan.partsOnly then s.declared
              else s.live.declareNew stableUrl plan s.declared } }
    else none
  | .snapshotFailed gone =>
    if s.reloadInflight then
      let live := s.live.reloadFailed gone
      some { r with
        session := some
          { s with live, reloadInflight := false, nextReloadAt := r.now + backoff live.failStreak } }
    else none
  | .loaded key data =>
    if key ∈ s.inflight then
      some { r with
        files := Function.update r.files key.file (some data)
        session := some
          { s with
            inflight := s.inflight.erase key,
            live := s.live.onItem key fun it => { it with state := .done, attempts := 0 } } }
    else none
  | .loadFailed key =>
    if key ∈ s.inflight then
      some { r with
        session := some
          { s with
            inflight := s.inflight.erase key,
            live := s.live.onItem key (LiveState.loadFailed r.now) } }
    else none
  | .cancel => some { r with session := some { s with exit := some .cancelled } }
  | .spliceFailed bytes =>
    (s.live.spliceOne stableUrl).map fun (key, _, _) =>
      -- the item is out of the queue, and neither the head nor the count has moved
      { r with
        session := some
          { s with
            live := s.live.dropItem key,
            buffer := s.buffer ++ ((r.files key.file).getD []).take bytes,
            exit := some .failed } }
  | .diskFailed => some { r with session := some { s with exit := some .failed } }
  | _ => none

/-- Behind the loop. -/
def close (r : Recording) (s : Session) (e : LiveExit) (flushed : Bool) : Recording :=
  let kept := { r with ctrl := some (r.ctrlOf s), saved := r.spliced, session := none }
  if flushed then
    match e with
    | .failed => { kept with product := r.product ++ s.buffer }
    | .cancelled => { kept with product := r.product ++ s.buffer }
    | .ended =>
      { r with
        product := r.product ++ s.buffer, ctrl := none, files := fun _ => none, session := none }
    | .stalled =>
      { r with
        product := r.product ++ s.buffer, ctrl := none, files := fun _ => none, session := none }
  else kept

def step (r : Recording) (e : LiveEvent) : Option Recording :=
  match e, r.session with
  | .wait ms, _ => some { r with now := r.now + ms }
  | .kill, _ => some { r with session := none }
  | .start plan, none =>
    if plan.partsOnly ∨ plan.segments = [] then none else some (r.start stableUrl opts plan)
  | .start _, some _ => none
  | .writeOut n, some s =>
    some { r with
      product := r.product ++ s.buffer.take n, session := some { s with buffer := s.buffer.drop n } }
  | .close flushed, some s => s.exit.map fun e => r.close s e flushed
  | e, some s => if s.exit = none then r.onSession stableUrl opts s e else none
  | _, none => none

end Recording
end

end XferRust.Playlist
