import XferRust.Lib.ByteFile
import XferRust.Lib.StepRun
import XferRust.Sftp.Bitmap

/-! # Downloads over several SFTP channels

`download` prepares the target and deals the pieces out to one worker for each channel; every second
it saves the bitmap to the control file, behind an `fsync` of the target.  The steps of the model
are those between which another thread or a crash can come: of the main loop, of each worker, of
the blocking threads that go on writing for workers that were aborted, and of a crash, after which
the next download finds the disk as it is then.  The remote file stays the same.

The disk knows what would survive a crash: the bytes that an `fsync` has made durable and that have
not been changed since, and the lengths between which the target has been going.  A rename is
atomic and durable; a crash may leave anything in the bytes that are not durable.
-/
namespace XferRust.Sftp.Download
open StepRun

/-! ## The control file -/

structure CtrlFile where
  magic : String
  v : Nat
  total : Nat
  piece : Nat
  remote : String
  done : String

/-- What is found under the name of the control file. -/
inductive Content
  /-- No control file to `serde_json`. -/
  | garbage
  | file (c : CtrlFile)

/-- What is downloaded, by the path on the server, and over how many channels. -/
structure Job where
  content : List UInt8
  remote : String
  connections : Nat

def Job.total (j : Job) : Nat := j.content.length

def Job.pieces (j : Job) : Nat := piecesOf j.total

/-- `load` -/
def Job.load (j : Job) : Option Content → Option Bitmap
  | some (.file cf) =>
    if cf.magic ≠ "xfer-sftp" ∨ cf.v ≠ 1 ∨ cf.total ≠ j.total ∨ cf.piece ≠ pieceLen then none
    else if cf.remote ≠ j.remote then none
    else Bitmap.fromHex cf.done j.pieces
  | _ => none

/-- The control file that `save` writes. -/
def Job.ctrlFile (j : Job) (b : Bitmap) : CtrlFile :=
  { magic := "xfer-sftp", v := 1, total := j.total, piece := pieceLen, remote := j.remote,
    done := b.toHex }

/-! ## The disk -/

structure Disk where
  /-- The target; one that does not exist is empty. -/
  file : List UInt8
  /-- The bytes that survive a crash. -/
  stable : Nat → Option UInt8
  /-- The lengths that a crash may leave. -/
  sizes : List Nat
  ctrl : Option Content

namespace Disk

def atRest (file : List UInt8) (ctrl : Option Content) : Disk :=
  { file, stable := fun p => file[p]?, sizes := [file.length], ctrl }

/-- `set_len` -/
def setLen (d : Disk) (n : Nat) : Disk :=
  { d with
    file := d.file.take n ++ List.replicate (n - d.file.length) 0
    stable := fun p => if p < n then d.stable p else none
    sizes := n :: d.sizes }

/-- `write_at`.  A byte that stays the same stays durable. -/
def write (d : Disk) (offset : Nat) (data : List UInt8) : Disk :=
  let file := ByteFile.writeAt 0 d.file offset data
  { d with
    file
    stable := fun p =>
      if offset ≤ p ∧ p < offset + data.length ∧ d.stable p ≠ data[p - offset]? then none
      else d.stable p
    sizes := file.length :: d.sizes }

/-- The end of an `fsync` that began when the target was `data`. -/
def sync (d : Disk) (data : List UInt8) : Disk :=
  { d with
    stable := fun p =>
      if d.file[p]?.isSome ∧ data[p]? = d.file[p]? then d.file[p]? else d.stable p
    sizes := if data.length = d.file.length then [d.file.length] else d.sizes }

/-- A crash may leave the target so. -/
def CanLeave (d : Disk) (file : List UInt8) : Prop :=
  file.length ∈ d.sizes ∧ ∀ p < d.file.length, d.stable p = none ∨ file[p]? = d.stable p

instance decidableCanLeave (d : Disk) (file : List UInt8) : Decidable (d.CanLeave file) :=
  inferInstanceAs (Decidable (_ ∧ ∀ p < d.file.length, d.stable p = none ∨ file[p]? = d.stable p))

end Disk

/-! ## The threads -/

/-- A worker.  Between the reads of a piece, and while the piece is written, it can be aborted. -/
inductive Worker
  | loop
  /-- The piece has been taken from the counter. -/
  | check (idx : Nat)
  | reading (idx : Nat) (buf : List UInt8)
  | writing (idx : Nat) (buf : List UInt8) (pos : Nat)
  | marking (idx : Nat)
  /-- The piece has been marked, and is not counted yet. -/
  | counting (idx : Nat)
  | ended (ok : Bool)
deriving DecidableEq

/-- `download`, by the step that it takes next. -/
inductive Main
  | idle
  /-- `set_len(0)` -/
  | cutting
  /-- `set_len(total)` -/
  | growing
  | ready
  | opening
  | running
  /-- `save` with its snapshot, before the `fsync`; and whether the loop goes on behind it. -/
  | saving (snapshot : Bitmap) (goOn : Bool)
  /-- In the `fsync` that began when the target was `data`. -/
  | syncing (snapshot : Bitmap) (data : List UInt8) (goOn : Bool)
  | synced (snapshot : Bitmap) (goOn : Bool)
  /-- `finish` -/
  | finishing
  | removing
deriving DecidableEq

/-- The process and the disk. -/
structure State where
  disk : Disk
  main : Main
  bitmap : Bitmap
  /-- `stats.completed` -/
  completed : Nat
  next : Nat
  workers : List Worker
  /-- What the threads of aborted workers have left to write, with its offset. -/
  stale : List (Nat × List UInt8)
  /-- Whether the target has been cut under a control file that still marks pieces. -/
  cut : Bool
  /-- Whether the last download has returned `Ok`. -/
  outcome : Option Bool

/-- What a worker does. -/
inductive Act
  | take
  | look
  | read (n : Nat)
  | put
  | write (n : Nat)
  | written
  | mark
  | count
  /-- A failure or an abort; the thread that writes may go on. -/
  | fail (detached : Bool)

inductive Event
  | start
  | setLen
  /-- `download` returns an error without a save. -/
  | giveUp
  | begin
  | spawn (n : Nat)
  | act (i : Nat) (a : Act)
  | stale (k n : Nat)
  /-- The 1 Hz save. -/
  | save
  /-- The save after a cancellation or a failure of a worker; the workers have been joined. -/
  | stop
  | fsync
  | rename
  | saveFails
  | complete
  /-- `sync_all` -/
  | finish
  /-- `remove`, which fails without notice. -/
  | remove (ok : Bool)
  | crash (file : List UInt8)

variable (j : Job)

/-- Nothing runs. -/
def State.rest (d : Disk) : State :=
  { disk := d, main := .idle, bitmap := .new j.total, completed := 0, next := 0, workers := [],
    stale := [], cut := false, outcome := none }

/-! ## Steps -/

/-- Some piece is marked. -/
def Bitmap.marks (b : Bitmap) : Bool := (List.range b.pieces).any b.isDone

/-- The control file fits, and marks a piece. -/
def Job.claims (j : Job) (ctrl : Option Content) : Bool := (j.load ctrl).any Bitmap.marks

/-- `READ_CHUNK` -/
def readChunk : Nat := 65536

/-- The bitmap that the start of `download` takes over. -/
def Job.inherited (j : Job) (d : Disk) : Option Bitmap :=
  (j.load d.ctrl).filter fun _ => d.file.length = j.total

/-- `download`, up to the look at the control file; `completed` begins with `resume_bytes`. -/
def State.start (s : State) : State :=
  let s := { s with outcome := none }
  match j.inherited s.disk with
  | some b => { s with main := .ready, bitmap := b, completed := b.doneBytes j.total }
  | none => { s with main := .cutting, bitmap := .new j.total, completed := 0 }

/-- How many channels are asked for. -/
def Job.want (j : Job) (b : Bitmap) : Nat :=
  max (min (max 1 (min j.connections 8)) (b.pieces - b.done)) 1

/-- What a worker does to the state and to itself. -/
def Worker.act (w : Worker) (s : State) : Act → Option (State × Worker)
  | .take =>
    match w with
    | .loop =>
      some ({ s with next := s.next + 1 },
        if s.bitmap.pieces ≤ s.next then .ended true else .check s.next)
    | _ => none
  | .look =>
    match w with
    | .check idx => some (s, if s.bitmap.isDone idx then .loop else .reading idx [])
    | _ => none
  | .read n =>
    match w with
    | .reading idx buf =>
      if 0 < n ∧ n ≤ readChunk ∧ buf.length + n ≤ pieceSize j.total idx then
        some (s, .reading idx (buf ++ (j.content.drop (idx * pieceLen + buf.length)).take n))
      else none
    | _ => none
  | .put =>
    match w with
    | .reading idx buf =>
      if buf.length = pieceSize j.total idx then some (s, .writing idx buf 0) else none
    | _ => none
  | .write n =>
    match w with
    | .writing idx buf pos =>
      if 0 < n ∧ pos + n ≤ buf.length then
        some ({ s with disk := s.disk.write (idx * pieceLen + pos) ((buf.drop pos).take n) },
          .writing idx buf (pos + n))
      else none
    | _ => none
  | .written =>
    match w with
    | .writing idx buf pos => if pos = buf.length then some (s, .marking idx) else none
    | _ => none
  | .mark =>
    match w with
    | .marking idx =>
      some ({ s with bitmap := (s.bitmap.mark idx).1 },
        if (s.bitmap.mark idx).2 then .counting idx else .loop)
    | _ => none
  | .count =>
    match w with
    | .counting idx => some ({ s with completed := s.completed + pieceSize j.total idx }, .loop)
    | _ => none
  | .fail detached =>
    match w with
    | .loop | .reading _ _ => some (s, .ended false)
    | .writing idx buf pos =>
      some (if detached then
          { s with stale := s.stale ++ [(idx * pieceLen + pos, buf.drop pos)] } else s,
        .ended false)
    | _ => none

/-- `download` has returned. -/
def State.return (s : State) (ok : Bool) : State :=
  { s with main := .idle, outcome := some ok }

/-- Behind a save. -/
def State.after (s : State) (goOn : Bool) : State :=
  if goOn then { s with main := .running } else s.return false

def State.step (s : State) : Event → Option State
  | .start => if s.main = .idle then some (s.start j) else none
  | .setLen =>
    match s.main with
    | .cutting => some { s with main := .growing, disk := s.disk.setLen 0 }
    | .growing =>
      some { s with
        main := .ready
        disk := s.disk.setLen j.total
        cut := j.claims s.disk.ctrl }
    | _ => none
  | .giveUp =>
    match s.main with
    | .cutting | .growing | .opening | .finishing => some (s.return false)
    | _ => none
  | .begin =>
    if s.main = .ready then
      some { s with
        completed := s.bitmap.doneBytes j.total
        main := if j.total = 0 ∨ s.bitmap.isComplete then .finishing else .opening }
    else none
  | .spawn n =>
    if s.main = .opening ∧ 0 < n ∧ n ≤ j.want s.bitmap then
      some { s with main := .running, next := 0, workers := List.replicate n .loop }
    else none
  | .act i a =>
    (s.workers[i]?).bind fun w =>
      (w.act j s a).map fun r => { r.1 with workers := r.1.workers.set i r.2 }
  | .stale k n =>
    (s.stale[k]?).bind fun r =>
      if 0 < n ∧ n ≤ r.2.length then
        some { s with
          disk := s.disk.write r.1 (r.2.take n)
          stale := s.stale.set k (r.1 + n, r.2.drop n) }
      else none
  | .save => if s.main = .running then some { s with main := .saving s.bitmap true } else none
  | .stop =>
    if s.main = .running ∧ ∀ w ∈ s.workers, w = .ended true ∨ w = .ended false then
      some { s with main := .saving s.bitmap false, workers := [] }
    else none
  | .fsync =>
    match s.main with
    | .saving b goOn => some { s with main := .syncing b s.disk.file goOn }
    | .syncing b data goOn => some { s with main := .synced b goOn, disk := s.disk.sync data }
    | _ => none
  | .rename =>
    match s.main with
    | .synced b goOn =>
      some (State.after { s with
        disk := { s.disk with ctrl := some (.file (j.ctrlFile b)) }
        cut := false } goOn)
    | _ => none
  | .saveFails =>
    match s.main with
    | .saving _ goOn | .syncing _ _ goOn | .synced _ goOn => some (s.after goOn)
    | _ => none
  | .complete =>
    if s.main = .running ∧ ∀ w ∈ s.workers, w = .ended true then
      some { s with main := .finishing, workers := [] }
    else none
  | .finish =>
    if s.main = .finishing then
      some { s with main := .removing, disk := s.disk.sync s.disk.file, cut := false }
    else none
  | .remove ok =>
    if s.main = .removing then
      some (State.return { s with
        disk := { s.disk with ctrl := if ok then none else s.disk.ctrl }
        completed := j.total } true)
    else none
  | .crash file =>
    if s.disk.CanLeave file then some (.rest j (.atRest file s.disk.ctrl)) else none

/-! ## What is asked for -/

/-- The bytes of a piece. -/
def Job.InPiece (j : Job) (idx p : Nat) : Prop :=
  idx * pieceLen ≤ p ∧ p < idx * pieceLen + pieceSize j.total idx

/-- The piece is durable in the target. -/
def Disk.Keeps (d : Disk) (idx : Nat) : Prop :=
  ∀ p, j.InPiece idx p → d.stable p = j.content[p]?

/-- **Right**: behind an `Ok` the target is the remote file and no control file is left; a control
file that is about to be renamed marks durable pieces only; and the counter has the bytes of the
pieces that are marked, unless a worker is just about to count one. -/
structure State.Right (s : State) : Prop where
  ok : s.outcome = some true → s.disk.file = j.content ∧ s.disk.ctrl = none
  durable : ∀ b goOn, s.main = .synced b goOn → ∀ idx, b.isDone idx = true → s.disk.Keeps j idx
  counted : (∀ idx, .counting idx ∉ s.workers) → s.completed = s.bitmap.doneBytes j.total

/-- A control file that is taken over marks pieces that are in the target. -/
def Disk.Honest (d : Disk) : Prop :=
  ∀ b, j.load d.ctrl = some b → d.file.length = j.total → ∀ idx, b.isDone idx = true →
    d.Keeps j idx

/-- **Clear**: a download that has cut the target under a control file that marks pieces does not
end, and no crash comes, before it has replaced that file; and the control file of a download that
is complete can be removed. -/
def Clear (s : State) : Event → Prop
  | .giveUp | .crash _ => s.cut = false
  | .saveFails =>
    match s.main with
    | .saving _ false | .syncing _ _ false | .synced _ false => s.cut = false
    | _ => True
  | .remove ok => ok = true ∨ s.disk.ctrl = none
  | _ => True

instance decidableClear (s : State) : ∀ e, Decidable (Clear s e)
  | .giveUp => inferInstanceAs (Decidable (s.cut = false))
  | .crash _ => inferInstanceAs (Decidable (s.cut = false))
  | .saveFails =>
    match h : s.main with
    | .saving _ false => decidable_of_iff (s.cut = false) (by simp [Clear, h])
    | .syncing _ _ false => decidable_of_iff (s.cut = false) (by simp [Clear, h])
    | .synced _ false => decidable_of_iff (s.cut = false) (by simp [Clear, h])
    | .saving _ true => isTrue (by simp [Clear, h])
    | .syncing _ _ true => isTrue (by simp [Clear, h])
    | .synced _ true => isTrue (by simp [Clear, h])
    | .idle => isTrue (by simp [Clear, h])
    | .cutting => isTrue (by simp [Clear, h])
    | .growing => isTrue (by simp [Clear, h])
    | .ready => isTrue (by simp [Clear, h])
    | .opening => isTrue (by simp [Clear, h])
    | .running => isTrue (by simp [Clear, h])
    | .finishing => isTrue (by simp [Clear, h])
    | .removing => isTrue (by simp [Clear, h])
  | .remove ok => inferInstanceAs (Decidable (ok = true ∨ s.disk.ctrl = none))
  | .start => isTrue trivial
  | .setLen => isTrue trivial
  | .begin => isTrue trivial
  | .spawn _ => isTrue trivial
  | .act _ _ => isTrue trivial
  | .stale _ _ => isTrue trivial
  | .save => isTrue trivial
  | .stop => isTrue trivial
  | .fsync => isTrue trivial
  | .rename => isTrue trivial
  | .complete => isTrue trivial
  | .finish => isTrue trivial

end XferRust.Sftp.Download
