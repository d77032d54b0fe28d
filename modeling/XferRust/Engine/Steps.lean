import XferRust.Lib.StepRun
import XferRust.Lib.Pool

/-! # The task manager, one lock operation at a time

Commands (`pause`, `unpause`, `stop_seeding`, `remove_with_files`), the scheduler's `fill_slots`
and the workers (`run_task`) of `manager.rs` share the fields of `inner`, which have one lock, and
the fields of each task, which have one lock each.  A thread is the step that it takes next.  A
step is one lock operation or atomic access, and only the sections that keep `inner` locked over
several steps name the holder of the lock.

A block of `run_task` that keeps a task's `shared` locked is one step: every other field in it is
accessed once.  The tasks are objects that a thread may still hold when the map of tasks has lost
them; gids are drawn anew for every task.  Paths and their claims, times, progress and the session
file are left out.
-/
namespace XferRust.Engine
open Pool

/-! ## Tasks -/

inductive Status
  | waiting | active | seeding | paused | complete | error | removed
deriving DecidableEq

/-- `is_terminal`. -/
def Status.isTerminal : Status → Bool
  | .complete | .error | .removed => true
  | _ => false

inductive Intent
  | none | pause | remove | stopSeeding | restart
deriving DecidableEq

/-- `TaskFailure`, by what a worker looks at: the cancellations of its kinds, and any other failure
with its code and text. -/
inductive TaskFailure
  | cancelled
  | other (errorCode : Int) (message : List Char)
deriving DecidableEq

/-- The text by which `drive_bt_download` tells a cancellation. -/
def cancelText : List Char := ['已', '取', '消']

/-- What the drive of a task comes back with.  Of a BT engine the error is a text. -/
inductive DriveResult
  | ok
  | failed (failure : TaskFailure)
  | btFailed (message : List Char)
deriving DecidableEq

/-- `contains`. -/
def containsText : List Char → List Char → Bool
  | [], text => text.isPrefixOf []
  | c :: cs, text => text.isPrefixOf (c :: cs) || containsText cs text

/-- The failure that a drive returns; for BT the end of `drive_bt_download`. -/
def DriveResult.failure? : DriveResult → Option TaskFailure
  | .ok => none
  | .failed failure => some failure
  | .btFailed message =>
    if containsText message cancelText then some .cancelled else some (.other 1 message)

/-- A command in progress, by the step that it takes next. -/
inductive Caller
  | pauseLookup | pauseRead | pauseDequeue | pauseStatus | pauseIntent | pauseCancel
  | unpauseLookup | unpauseRead | unpauseClear | unpauseForget | unpauseSelect | unpauseToken
  | unpauseIntent | unpauseFiles | unpauseEnqueue | unpauseStatus
  | stopLookup | stopRead | stopIntent | stopCancel
  | removeLookup (deleteFiles : Bool) | removeFiles (deleteFiles : Bool)
  | removeRead (deleteFiles : Bool) | removeDequeue (deleteFiles : Bool)
  | removeIntent (deleteFiles : Bool) | removeCancel (deleteFiles : Bool)
  /-- The steps of `finish_removed`. -/
  | removedStatus (deleteFiles : Bool) | removedForget (deleteFiles : Bool)
  | removedFiles (deleteFiles : Bool)
deriving DecidableEq

/-- A worker, by the step that it takes next.  From `cleaning` on it holds the lock of `inner`. -/
inductive Worker
  /-- `fill_slots` has taken the task from the queue, which is not active yet. -/
  | picked
  /-- The task is active, and waits for the end of `fill_slots`. -/
  | started
  | spawned
  /-- `ticked`: the ticker of a BT task has set the intent and not cancelled yet. -/
  | driving (token : Nat) (ticked : Bool)
  | ended (result : DriveResult)
  | written (terminal : Bool)
  | removing (terminal : Bool)
  | leaving (terminal : Bool)
  | cleaning (terminal : Bool)
  | dropping
  | checkingStatus (terminal : Bool)
  | checkingIntent
  | restartIntent
  | restartToken
  | restartEnqueue
  | pausing
  | stopping (terminal : Bool)
deriving DecidableEq

/-- The last command that returned `Ok`. -/
inductive Verdict
  | paused
  | removed (deleteFiles : Bool)
deriving DecidableEq

structure Task where
  /-- Its gid has been given out. -/
  added : Bool
  isBt : Bool
  status : Status
  intent : Intent
  /-- The current cancel token; every new one is one more. -/
  token : Nat
  cancelled : List Nat
  deleteFiles : Bool
  /-- The metadata is there, and `bt-file-selection` waits for a selection. -/
  awaitsFiles : Bool
  errorCode : Int
  errorMessage : List Char
  /-- There may be files of the task on disk. -/
  files : Bool
  callers : List Caller
  workers : List Worker
  /-- History: `remove_with_files` has been called. -/
  removeCalled : Bool
  /-- History: what a command has promised that no later one has taken back. -/
  verdict : Option Verdict

/-- A gid that has not been given out. -/
def Task.absent : Task where
  added := false
  isBt := false
  status := .waiting
  intent := .none
  token := 0
  cancelled := []
  deleteFiles := false
  awaitsFiles := false
  errorCode := 0
  errorMessage := []
  files := false
  callers := []
  workers := []
  removeCalled := false
  verdict := none

inductive Command
  | pause | unpause | stopSeeding
  | remove (deleteFiles : Bool)

/-- A tick of the timer of a BT task. -/
inductive Tick
  | seeding
  /-- The metadata is there: files have to be selected, or the single one makes a restart. -/
  | selection (restart : Bool)
  | cancel

/-! ## Steps on one task -/

/-- The first step of a command. -/
def Command.start : Command → Caller
  | .pause => .pauseLookup
  | .unpause => .unpauseLookup
  | .stopSeeding => .stopLookup
  | .remove deleteFiles => .removeLookup deleteFiles

/-- `cancel.write()` with a new token. -/
def Task.newToken (t : Task) : Task := { t with token := t.token + 1 }

/-- `cancel.read()`, and the token's `cancel`. -/
def Task.cancel (t : Task) : Task := { t with cancelled := t.token :: t.cancelled }

/-- `delete_task_files` when the task is to lose its files; its control file goes in any case. -/
def Task.deleteTaskFiles (t : Task) : Task := { t with files := t.files && !t.deleteFiles }

/-- A command that goes on takes back what an earlier one has promised. -/
def Task.decide (t : Task) (next : Option Caller) : Task × Option Caller :=
  ({ t with verdict := if next.isSome then none else t.verdict }, next)

/-- What a step of a command does to the fields of its task, and how the command goes on. -/
def Caller.onTask : Caller → Task → Task × Option Caller
  | .pauseRead, t => t.decide (match t.status with
    | .waiting => some .pauseDequeue
    | .active | .seeding => some .pauseIntent
    | _ => none)
  | .pauseStatus, t => ({ t with status := .paused, verdict := some .paused }, none)
  | .pauseIntent, t => ({ t with intent := .pause }, some .pauseCancel)
  | .pauseCancel, t => ({ t.cancel with verdict := some .paused }, none)
  | .unpauseRead, t => t.decide (match t.status with
    | .paused => some .unpauseSelect
    | .error => some .unpauseClear
    | _ => none)
  | .unpauseClear, t => ({ t with errorCode := 0, errorMessage := [] }, some .unpauseForget)
  | .unpauseSelect, t => (t, if t.awaitsFiles then none else some .unpauseToken)
  | .unpauseToken, t => (t.newToken, some .unpauseIntent)
  | .unpauseIntent, t => ({ t with intent := .none }, some .unpauseFiles)
  | .unpauseFiles, t => ({ t with deleteFiles := false }, some .unpauseEnqueue)
  | .unpauseStatus, t => ({ t with status := .waiting }, none)
  | .stopRead, t => t.decide (if t.status = .seeding then some .stopIntent else none)
  | .stopIntent, t => ({ t with intent := .stopSeeding }, some .stopCancel)
  | .stopCancel, t => (t.cancel, none)
  | .removeFiles d, t => { t with deleteFiles := d }.decide (some (.removeRead d))
  | .removeRead d, t => (t, match t.status with
    | .waiting => some (.removeDequeue d)
    | .active | .seeding => some (.removeIntent d)
    | _ => some (.removedStatus d))
  | .removeIntent d, t => ({ t with intent := .remove }, some (.removeCancel d))
  | .removeCancel d, t => ({ t.cancel with verdict := some (.removed d) }, none)
  | .removedStatus d, t => ({ t with status := .removed }, some (.removedForget d))
  | .removedFiles d, t => ({ t.deleteTaskFiles with verdict := some (.removed d) }, none)
  | c, t => (t, some c)

/-- The final status of a worker; `true` for a terminal one. -/
def Task.finalStatus (t : Task) (result : DriveResult) : Task × Bool :=
  match result.failure? with
  | none => ({ t with status := .complete, errorCode := 0 }, true)
  | some .cancelled =>
    match t.intent with
    | .pause => ({ t with status := .paused }, false)
    | .restart => ({ t with status := .waiting }, false)
    | .stopSeeding => ({ t with status := .complete, errorCode := 0 }, true)
    | .none | .remove => ({ t with status := .removed }, true)
  | some (.other errorCode message) =>
    ({ t with status := .error, errorCode, errorMessage := message }, true)

/-- What a step of a worker does outside the lock of `inner`, or while it holds it without touching
its fields. -/
def Worker.onTask : Worker → Task → Option (Task × Worker)
  | .spawned, t => some ({ t with files := true }, .driving t.token false)
  | .ended result, t =>
    let (t, terminal) := t.finalStatus result
    some (t, .written terminal)
  | .written terminal, t =>
    some (t, if t.status = .removed then .removing terminal else .leaving terminal)
  | .removing terminal, t => some (t.deleteTaskFiles, .leaving terminal)
  | .cleaning terminal, t =>
    some (t, if t.status = .removed then .dropping else .checkingStatus terminal)
  | .checkingStatus terminal, t =>
    some (t, if t.status = .waiting then .checkingIntent else .stopping terminal)
  | .checkingIntent, t => some (t, if t.intent = .restart then .restartIntent else .pausing)
  | .restartIntent, t => some ({ t with intent := .none }, .restartToken)
  | .restartToken, t => some (t.newToken, .restartEnqueue)
  | _, _ => none

/-- What the timer of a BT task does while its worker drives. -/
def Task.tick (t : Task) (i : Nat) (token : Nat) (ticked : Bool) : Tick → Option Task
  | .seeding => if t.isBt then some { t with status := .seeding } else none
  | .selection restart =>
    if t.isBt ∧ ¬ticked ∧ t.intent = .none then
      some { t with
        intent := if restart then .restart else .pause
        workers := t.workers.set i (.driving token true) }
    else none
  | .cancel =>
    if ticked then
      some { t with
        cancelled := token :: t.cancelled
        workers := t.workers.set i (.driving token false) }
    else none

/-- A drive tells a cancellation only of a cancelled token; the engine of a BT task says what it
likes. -/
def DriveResult.possible (t : Task) (token : Nat) : DriveResult → Bool
  | .ok => true
  | .failed .cancelled => !t.isBt && token ∈ t.cancelled
  | .failed (.other _ _) => true
  | .btFailed _ => t.isBt

/-- A new task; its gid keeps the threads that it has. -/
def Task.add (isBt : Bool) (t : Task) : Task :=
  { Task.absent with
    added := true
    isBt := isBt
    callers := t.callers
    workers := t.workers
    removeCalled := t.removeCalled }

/-- A command comes in. -/
def Task.call (command : Command) (t : Task) : Task :=
  { t with
    callers := t.callers ++ [command.start]
    removeCalled := match command with
      | .remove _ => true
      | _ => t.removeCalled }

/-- `fill_slots` has taken the task from the queue. -/
def Task.pick (t : Task) : Task := { t with workers := t.workers ++ [Worker.picked] }

/-- The task is active, and its worker in the list of `fill_slots`. -/
def Task.activate (t : Task) : Task :=
  { t with
    status := .active
    workers := t.workers.map fun w => if w = Worker.picked then Worker.started else w }

/-- Its worker is spawned. -/
def Task.spawn (t : Task) : Task :=
  { t with workers := t.workers.map fun w => if w = Worker.started then Worker.spawned else w }

/-! ## The manager -/

/-- Where `fill_slots` stands. -/
inductive Sched (G : Type)
  | idle
  | head
  | activate (gid : G)
deriving DecidableEq

/-- Who keeps `inner` locked between two steps. -/
inductive Holder (G : Type)
  | sched
  | worker (gid : G)

structure Manager (G : Type) where
  tasks : List G
  queue : List G
  active : List G
  stoppedOrder : List G
  stoppedTotal : Nat
  maxConcurrent : Nat
  holder : Option (Holder G)
  sched : Sched G
  task : G → Task

/-- `MAX_RESULTS`. -/
def maxResults : Nat := 1000

inductive Event (G : Type)
  | add (gid : G) (isBt : Bool) (position : Option Nat)
  | call (gid : G) (command : Command)
  | caller (gid : G) (i : Nat)
  | fill
  | worker (gid : G) (i : Nat)
  | driveEnds (gid : G) (i : Nat) (result : DriveResult)
  | tick (gid : G) (i : Nat) (tick : Tick)
  | awaits (gid : G) (awaitsFiles : Bool)

namespace Manager

variable {G : Type} [DecidableEq G]

/-- A manager without tasks. -/
def initial (maxConcurrent : Nat) : Manager G where
  tasks := []
  queue := []
  active := []
  stoppedOrder := []
  stoppedTotal := 0
  maxConcurrent := maxConcurrent
  holder := none
  sched := .idle
  task := fun _ => Task.absent

/-- Another value of one task. -/
def modify (s : Manager G) (gid : G) (f : Task → Task) : Manager G :=
  { s with task := fun g => if g = gid then f (s.task g) else s.task g }

/-! ## Commands -/

/-- What a step of a command does under the lock of `inner`, and how the command goes on; nothing
for a step that leaves `inner` alone. -/
def onInner (s : Manager G) (gid : G) : Caller → Option (Manager G × Option Caller)
  | .pauseLookup => some (s, if gid ∈ s.tasks then some .pauseRead else none)
  | .unpauseLookup => some (s, if gid ∈ s.tasks then some .unpauseRead else none)
  | .stopLookup => some (s, if gid ∈ s.tasks then some .stopRead else none)
  | .removeLookup d => some (s, if gid ∈ s.tasks then some (.removeFiles d) else none)
  | .pauseDequeue => some ({ s with queue := s.queue.filter (· ≠ gid) }, some .pauseStatus)
  | .removeDequeue d => some ({ s with queue := s.queue.filter (· ≠ gid) }, some (.removedStatus d))
  | .unpauseForget =>
    some ({ s with stoppedOrder := s.stoppedOrder.filter (· ≠ gid) }, some .unpauseSelect)
  | .unpauseEnqueue => some ({ s with queue := s.queue ++ [gid] }, some .unpauseStatus)
  | .removedForget d =>
    some ({ s with
      tasks := s.tasks.filter (· ≠ gid)
      stoppedOrder := s.stoppedOrder.filter (· ≠ gid) }, some (.removedFiles d))
  | _ => none

/-- A step of a command; it waits while `inner` is locked. -/
def callerStep (s : Manager G) (gid : G) (i : Nat) (c : Caller) : Option (Manager G) :=
  match s.onInner gid c with
  | some (s', next) =>
    if s.holder = none then
      some (s'.modify gid fun t => { t with callers := advance t.callers i next })
    else none
  | none =>
    some (s.modify gid fun t =>
      let (t, next) := c.onTask t
      { t with callers := advance t.callers i next })

/-! ## The scheduler -/

/-- The active tasks that are not seeding. -/
def downloading (s : Manager G) : Nat :=
  (s.active.filter fun g => g ∈ s.tasks ∧ (s.task g).status ≠ .seeding).length

/-- The section of `fill_slots` is over; the workers of its list are spawned. -/
def spawnAll (s : Manager G) : Manager G :=
  { s with
    holder := none
    sched := .idle
    task := fun g => (s.task g).spawn }

/-- `fill_slots` takes the task at the head of the queue. -/
def pick (s : Manager G) (gid : G) (rest : List G) : Manager G :=
  { s with
    queue := rest
    active := if gid ∈ s.active then s.active else s.active ++ [gid]
    sched := .activate gid }.modify gid Task.pick

/-- The task that `fill_slots` has taken becomes active, and goes to its list. -/
def activate (s : Manager G) (gid : G) : Manager G :=
  { s with sched := .head }.modify gid Task.activate

/-- A step of `fill_slots`. -/
def schedStep (s : Manager G) : Option (Manager G) :=
  match s.sched with
  | .idle => if s.holder = none then some { s with holder := some .sched, sched := .head } else none
  | .head =>
    if ¬s.active.length < s.maxConcurrent then some s.spawnAll
    else if ¬s.downloading < s.maxConcurrent then some s.spawnAll
    else
      match s.queue with
      | [] => some s.spawnAll
      | gid :: rest =>
        if gid ∉ s.tasks then some { s with queue := rest }
        else if (s.task gid).status ≠ .waiting then some { s with queue := rest }
        else some (s.pick gid rest)
  | .activate gid => some (s.activate gid)

/-! ## Workers -/

/-- What the last step of a worker does, which gives the lock of `inner` back. -/
def release (s : Manager G) (gid : G) : Worker → Option (Manager G)
  | .dropping => some { s with
      holder := none
      tasks := s.tasks.filter (· ≠ gid)
      stoppedOrder := s.stoppedOrder.filter (· ≠ gid) }
  | .restartEnqueue => some { s with holder := none, queue := s.queue ++ [gid] }
  | .pausing => some ({ s with holder := none }.modify gid fun t => { t with status := .paused })
  | .stopping terminal =>
    if terminal then
      let stopped := s.stoppedOrder ++ [gid]
      let old := stopped.take (stopped.length - maxResults)
      some { s with
        holder := none
        stoppedOrder := stopped.drop (stopped.length - maxResults)
        stoppedTotal := s.stoppedTotal + 1
        tasks := s.tasks.filter (· ∉ old) }
    else some { s with holder := none }
  | _ => none

/-- A step of a worker. -/
def workerStep (s : Manager G) (gid : G) (i : Nat) (w : Worker) : Option (Manager G) :=
  match w with
  | .leaving terminal =>
    if s.holder = none then
      some ({ s with holder := some (.worker gid), active := s.active.filter (· ≠ gid) }.modify gid
        fun t => { t with workers := t.workers.set i (.cleaning terminal) })
    else none
  | w =>
    match w.onTask (s.task gid) with
    | some (t', w') => some (s.modify gid fun _ => { t' with workers := t'.workers.set i w' })
    | none =>
      (s.release gid w).map fun s => s.modify gid fun t => { t with workers := t.workers.eraseIdx i }

/-! ## Events -/

/-- The place of a new task in the queue. -/
def enqueueAt (s : Manager G) (gid : G) : Option Nat → List G
  | some pos => s.queue.insertIdx (min pos s.queue.length) gid
  | none => s.queue ++ [gid]

def step (s : Manager G) : Event G → Option (Manager G)
  | .add gid isBt position =>
    if (s.task gid).added = false ∧ s.holder = none then
      some ({ s with tasks := s.tasks ++ [gid], queue := s.enqueueAt gid position }.modify gid
        (Task.add isBt))
    else none
  | .call gid command => some (s.modify gid (Task.call command))
  | .caller gid i =>
    match (s.task gid).callers[i]? with
    | some c => s.callerStep gid i c
    | none => none
  | .fill => s.schedStep
  | .worker gid i =>
    match (s.task gid).workers[i]? with
    | some w => s.workerStep gid i w
    | none => none
  | .driveEnds gid i result =>
    match (s.task gid).workers[i]? with
    | some (.driving token _) =>
      if result.possible (s.task gid) token then
        some (s.modify gid fun t => { t with workers := t.workers.set i (.ended result) })
      else none
    | _ => none
  | .tick gid i tick =>
    match (s.task gid).workers[i]? with
    | some (.driving token ticked) =>
      ((s.task gid).tick i token ticked tick).map fun t => s.modify gid fun _ => t
    | _ => none
  | .awaits gid awaitsFiles => some (s.modify gid fun t => { t with awaitsFiles })

end Manager

end XferRust.Engine
