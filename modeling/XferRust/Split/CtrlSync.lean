import XferRust.Split.Session

/-! # The control file's way to the disk

Two threads write the control file: the sync thread, which takes a snapshot from a channel of
capacity one, makes the data file durable and then replaces the control file; and the writer
thread, which does the same itself at the start and at the end, after a barrier.  Both go through
one temporary file.  The model has a step for everything between which the other thread or a
crash may come: sending and receiving, the begin and the end of an `fsync`, creating, writing and
renaming the temporary file, cutting the data file, removing the control file.

The disk remembers two things the code does not see: which bytes of the data file would survive a
crash, and which ones ever did.  An `fsync` makes durable what was written before it began, and a
rename is atomic.  Everything is about one path and one total; a run may crash at any point, and
the next one starts from what it finds.
-/
namespace XferRust.Split
open Tiling StepRun

/-- What a control file or its temporary file holds. -/
inductive Content
  /-- Not what anybody meant to write. -/
  | partly
  | snapshot (c : CtrlFile)

/-- The directory and the data file. -/
structure Disk where
  /-- The bytes of the data file. -/
  data : List Span
  /-- Those of them that survive a crash. -/
  durable : List Span
  /-- Those that were durable at any time. -/
  synced : List Span
  /-- The length of the data file. -/
  len : UInt64
  /-- Whether the data file has become shorter since the control file was replaced. -/
  shortened : Bool
  ctrl : Option Content
  tmp : Option Content

namespace Disk

/-- `File::set_len`. -/
def setLen (d : Disk) (len : UInt64) : Disk :=
  { d with
    data := clip len.toNat d.data
    durable := clip len.toNat d.durable
    len
    shortened := d.shortened || len < d.len }

/-- Writes to the data file. -/
def write (d : Disk) (spans : List Span) : Disk :=
  { d with
    data := d.data ++ spans
    len := spans.foldl (fun len s => max len (UInt64.ofNat s.hi)) d.len }

/-- The end of an `fsync` of the data file that began when `data` was in it. -/
def sync (d : Disk) (data : List Span) : Disk :=
  { d with durable := d.durable ++ data, synced := d.synced ++ data }

end Disk

/-- Where a thread stands in `write_ctrl_atomic`. -/
inductive Replace
  | create
  | write
  | rename
  deriving DecidableEq

/-- `SyncMsg`. -/
inductive SyncMsg
  | job (c : CtrlFile)
  | barrier

/-- Where the sync thread stands. -/
inductive SyncThread
  | idle
  | fsync (c : CtrlFile)
  /-- In an `fsync` that began when `data` was in the file. -/
  | fsyncing (c : CtrlFile) (data : List Span)
  | replacing (c : CtrlFile) (r : Replace)

/-- `FinishMode`. -/
inductive FinishMode
  | success
  | preserve
  | discard
  deriving DecidableEq

/-- What the writer thread is about when it is not taking commands. -/
inductive Task
  /-- The forced save after `bootstrap`. -/
  | boot
  /-- The forced save at the end of a run that may go on later. -/
  | save
  | finish (mode : FinishMode)
  deriving DecidableEq

/-- Where the writer thread stands. -/
inductive WriterThread
  | loop
  /-- About to send the barrier. -/
  | barrier (task : Task)
  /-- Waiting for the answer to the barrier. -/
  | waiting (task : Task)
  | fsync (task : Task)
  | replacing (task : Task) (c : CtrlFile) (r : Replace)
  | setLen (mode : FinishMode)
  | remove (mode : FinishMode)
  /-- Returned: `finish` came to its end, or an error or the loss of its channel ended it. -/
  | done (mode : Option FinishMode)
  deriving DecidableEq

/-- A run in progress. -/
structure Running where
  session : Session
  writer : WriterThread
  chan : Option SyncMsg
  sync : SyncThread

/-- The disk, and the run on it. -/
structure Store where
  disk : Disk
  run : Option Running

inductive StoreEvent
  /-- `bootstrap` of a new run. -/
  | boot (url : String) (opts : SplitOptions) (now : Nat)
  /-- Something happens to the session; the heartbeat also saves. -/
  | session (e : Event)
  /-- `ToWriter::Finish`. -/
  | finish (mode : FinishMode)
  /-- The writer's channel is closed before it is told to finish. -/
  | hangup
  /-- The next step of the writer thread outside the loop; `ok` unless it is an error. -/
  | writer (ok : Bool) (now : Nat)
  /-- The next step of the sync thread. -/
  | sync (ok : Bool)
  /-- Both threads have ended. -/
  | close
  /-- A crash after which the data file has `len` bytes. -/
  | crash (len : UInt64)

/-- `load_ctrl`, up to JSON. -/
def Content.load : Option Content → Option CtrlFile
  | some (.snapshot c) => if c.v = 1 then some c else none
  | _ => none

/-- One step of `write_ctrl_atomic` and where it leads, if not to an error.  The file is synced
with the write. -/
def Disk.replaceStep (d : Disk) (c : CtrlFile) (r : Replace) (ok : Bool) :
    Disk × Option (Option Replace) :=
  match r with
  | .create => if ok then ({ d with tmp := some .partly }, some (some .write)) else (d, none)
  | .write =>
    if ok then ({ d with tmp := some (.snapshot c) }, some (some .rename))
    else ({ d with tmp := some .partly }, none)
  | .rename =>
    if ok then ({ d with ctrl := d.tmp, tmp := none, shortened := false }, some none)
    else (d, none)

/-- `save_ctrl` without force: the snapshot goes to the sync thread if there is room for it. -/
def Running.periodicSave (r : Running) (now : Nat) : Running :=
  if now - r.session.w.lastSave < ctrlSaveInterval then r
  else
    match r.chan with
    | some _ => r
    | none =>
      { r with
        chan := some (.job r.session.w.serializeCtrl)
        session := { r.session with w := { r.session.w with lastSave := now } } }

/-- Whether the writer thread takes part in an event of the session. -/
def Event.isCommand : Event → Bool
  | .spawn => false
  | .stop => false
  | .exit _ => false
  | _ => true

/-- An event of the session in a run: the data it writes goes to the disk. -/
def Running.sessionStep (r : Running) (e : Event) : Option (Running × List Span) :=
  if e.isCommand && r.writer ≠ .loop then none
  else
    (r.session.step e).map fun s =>
      let r' := { r with session := s }
      match e with
      | .saveCtrl now => (r'.periodicSave now, [])
      | _ => (r', r.session.wrote e)

/-- The end of a task whose control file has been replaced. -/
def Task.replaced : Task → WriterThread
  | .boot => .loop
  | .save => .done (some .preserve)
  | .finish mode => .done (some mode)

/-- A step of the writer thread outside its loop. -/
def Running.writerStep (r : Running) (d : Disk) (ok : Bool) (now : Nat) :
    Option (Running × Disk) :=
  match r.writer with
  | .loop => none
  | .waiting _ => none
  | .done _ => none
  | .barrier task =>
    match r.chan with
    | some _ => none
    | none => some ({ r with chan := some .barrier, writer := .waiting task }, d)
  | .fsync task =>
    if !ok then some ({ r with writer := .done none }, d)
    else
      let d := d.sync d.data
      match task with
      | .finish .preserve => some ({ r with writer := .barrier .save }, d)
      | .finish mode => some ({ r with writer := .setLen mode }, d)
      | task => some ({ r with writer := .replacing task r.session.w.serializeCtrl .create }, d)
  | .replacing task c at_ =>
    match d.replaceStep c at_ ok with
    | (d, some (some next)) => some ({ r with writer := .replacing task c next }, d)
    | (d, some none) =>
      let session := { r.session with w := { r.session.w with lastSave := now } }
      some ({ r with session, writer := task.replaced }, d)
    | (d, none) => some ({ r with writer := .done none }, d)
  | .setLen mode =>
    if !ok then some ({ r with writer := .done none }, d)
    else
      let len := if mode = .success then r.session.w.total else r.session.w.contiguousPrefix
      some ({ r with writer := .remove mode }, d.setLen len)
  | .remove mode =>
    some ({ r with writer := .done (some mode) }, if ok then { d with ctrl := none } else d)

/-- A step of the sync thread.  A failed `fsync` skips the job, and a failed replacement is only
reported. -/
def Running.syncStep (r : Running) (d : Disk) (ok : Bool) : Option (Running × Disk) :=
  match r.sync with
  | .idle =>
    match r.chan, r.writer with
    | none, _ => none
    | some (.job c), _ => some ({ r with chan := none, sync := .fsync c }, d)
    | some .barrier, .waiting task => some ({ r with chan := none, writer := .fsync task }, d)
    | some .barrier, _ => some ({ r with chan := none }, d)
  | .fsync c => some ({ r with sync := .fsyncing c d.data }, d)
  | .fsyncing c data =>
    if ok then some ({ r with sync := .replacing c .create }, d.sync data)
    else some ({ r with sync := .idle }, d)
  | .replacing c at_ =>
    match d.replaceStep c at_ ok with
    | (d, some (some next)) => some ({ r with sync := .replacing c next }, d)
    | (d, _) => some ({ r with sync := .idle }, d)

/-- `bootstrap` on a disk.  Without an accepted control file every byte of the partial file counts
as written before. -/
def Store.boot (s : Store) (total : UInt64) (url : String) (opts : SplitOptions) (now : Nat) :
    Store :=
  let loaded := Content.load s.disk.ctrl
  let len := bootstrapLen total s.disk.len loaded
  let d := if len = s.disk.len then s.disk else s.disk.setLen len
  { disk :=
      match acceptCtrl total s.disk.len loaded with
      | some _ => d
      | none => { d with data := [⟨0, len.toNat⟩] }
    run := some
      { session := .start url total opts s.disk.len loaded now
        writer := .barrier .boot
        chan := none
        sync := .idle } }

/-- The bytes that survive a crash end before `len`, and no file grows by it. -/
def Disk.survives (d : Disk) (len : UInt64) : Bool :=
  len ≤ d.len && d.durable.all fun s => s.lo ≥ s.hi || s.hi ≤ len.toNat

/-- One step of the two threads, the session or the surroundings. -/
def Store.step (total : UInt64) (s : Store) : StoreEvent → Option Store
  | .boot url opts now =>
    match s.run with
    | none => some (s.boot total url opts now)
    | some _ => none
  | .session e =>
    s.run.bind fun r => (r.sessionStep e).map fun x =>
      { disk := s.disk.write x.2, run := some x.1 }
  | .finish mode =>
    s.run.bind fun r =>
      if r.writer = .loop then
        some { s with run := some { r with writer := .barrier (.finish mode) } }
      else none
  | .hangup =>
    s.run.bind fun r =>
      if r.writer = .loop then some { s with run := some { r with writer := .done none } }
      else none
  | .writer ok now =>
    s.run.bind fun r => (r.writerStep s.disk ok now).map fun x => { disk := x.2, run := some x.1 }
  | .sync ok =>
    s.run.bind fun r => (r.syncStep s.disk ok).map fun x => { disk := x.2, run := some x.1 }
  | .close =>
    s.run.bind fun r =>
      match r.writer, r.chan, r.sync with
      | .done _, none, .idle => some { s with run := none }
      | _, _, _ => none
  | .crash len =>
    if s.disk.survives len then
      some { disk := { s.disk with data := s.disk.durable, len }, run := none }
    else none

abbrev Store.trace (total : UInt64) : Store → List StoreEvent → Option Store :=
  StepRun.run (Store.step total)

/-- A path with a data file of `len` bytes, some of them durable, no control file, and whatever is
left of a temporary one. -/
def Store.fresh (len : UInt64) (durable : List Span) (tmp : Option Content) : Store where
  disk :=
    { data := [⟨0, len.toNat⟩], durable := clip len.toNat durable
      synced := clip len.toNat durable, len, shortened := false, ctrl := none, tmp }
  run := none

end XferRust.Split
