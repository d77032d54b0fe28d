import XferRust.Lib.StepRun
import XferRust.Split.Moves

/-! # A split download as a system

The writer with its workers, from `bootstrap` to the end: the commands of `writer_loop` in any
order, the workers that send them, and the file as the writes leave it.  A worker's request
for work and the answer are one step, since the worker waits for the answer.  A write may
name any segment and any offset, and a worker may join at any time; the main loop makes less
use of either.  When the main loop ends, because the download is finished, has failed or is
cancelled, it stops the workers, and a stopped worker returns without a word to the writer.
-/
namespace XferRust.Split
open Tiling StepRun

/-- A worker between two commands of its own. -/
inductive Worker
  /-- About to ask for work, with nothing to give back. -/
  | idle
  /-- Reading a segment, or about to give it back. -/
  | holding (seg : Nat)
  /-- Returned. -/
  | gone
  deriving DecidableEq

/-- What the worker gives back with its next request. -/
def Worker.seg? : Worker → Option Nat
  | holding seg => some seg
  | _ => none

/-- What an answer makes of the worker. -/
def Worker.after : Assignment → Worker
  | .work seg _ _ => .holding seg
  | .park _ => .idle
  | .retire => .gone
  | .done => .gone

/-- The writer, its workers, and which bytes were put into the file, before the run (as the
control file has it) or in it. -/
structure Session where
  w : Writer
  workers : List Worker
  file : List Span
  /-- Whether the workers have been told to stop. -/
  stopped : Bool

/-- The commands to the writer and what else happens in a run. -/
inductive Event
  /-- `ToWriter::Write`; `io` is the error of the write to the file, if it fails. -/
  | write (seg : Nat) (offset : UInt64) (data : List UInt8) (io : Option String) (now : Nat)
  /-- `ToWriter::Next` of a worker, with the answer. -/
  | next (worker : Nat) (failed : Bool) (failures : UInt32) (now : Nat)
  /-- `ToWriter::Fatal` of a worker, which returns. -/
  | fatal (worker : Nat) (err : HttpError)
  /-- `ToWriter::SaveCtrl`, without the save itself. -/
  | saveCtrl (now : Nat)
  /-- `ToWriter::AdaptiveAction`. -/
  | adaptive (action : ScheduleAction) (now : Nat)
  /-- The main loop starts a worker. -/
  | spawn
  /-- `ToWriter::WorkerJoined`. -/
  | joined
  /-- The main loop ends and tells the workers to stop. -/
  | stop
  /-- A worker that has been told to stop returns. -/
  | exit (worker : Nat)

/-- The bytes of a write. -/
def writeSpan (offset : UInt64) (data : List UInt8) : Span :=
  ⟨offset.toNat, offset.toNat + data.length⟩

/-- The bytes of a segment below its watermark. -/
def Seg.writtenSpan (s : Seg) : Span := ⟨s.start.toNat, s.start.toNat + s.written.toNat⟩

namespace Session

/-- A run before its first command: `writer_loop` has counted the workers it is going to
have, and the main loop has started them. -/
def ofWriter (w : Writer) : Session where
  w := { w with alive := w.spawnCount, desiredWorkers := w.spawnCount }
  workers := List.replicate w.spawnCount .idle
  file := w.segs.map Seg.writtenSpan
  stopped := false

/-- The run on a partial file of `fileLen` bytes with the control file that `load_ctrl`
returned. -/
def start (url : String) (total : UInt64) (opts : SplitOptions) (fileLen : UInt64)
    (loaded : Option CtrlFile) (now : Nat) : Session :=
  ofWriter (bootstrap url total opts fileLen loaded now)

/-- Worker `i` becomes `x`. -/
def setWorker (s : Session) (i : Nat) (x : Worker) : Session :=
  { s with workers := s.workers.set i x }

/-- The bytes a command puts into the file. -/
def wrote (s : Session) : Event → List Span
  | .write seg offset data io now =>
    (s.w.onWrite seg offset data io now).2.toList.map fun x => writeSpan x.1 x.2
  | _ => []

/-- `writer_loop` on one command, and what the workers and the main loop do besides. -/
def step (s : Session) : Event → Option Session
  | .write seg offset data io now =>
    some
      { s with
        w := (s.w.onWrite seg offset data io now).1
        file := s.file ++ s.wrote (.write seg offset data io now) }
  | .next i failed failures now =>
    match s.workers[i]? with
    | none => none
    | some .gone => none
    | some x =>
      let r := s.w.nextWork (x.seg?.map fun seg => (seg, failed)) failures now
      some ({ s with w := r.1 }.setWorker i (.after r.2))
  | .fatal i err =>
    match s.workers[i]? with
    | none => none
    | some .gone => none
    | some _ => some ({ s with w := s.w.setFatal err }.setWorker i .gone)
  | .saveCtrl now => some { s with w := (s.w.reclaimStalled now).watchdogRequeueStalled now }
  | .adaptive action now => some { s with w := s.w.applyAdaptiveAction action now }
  | .spawn => if s.stopped then none else some { s with workers := s.workers ++ [.idle] }
  | .joined => some { s with w := { s.w with alive := s.w.alive + 1 } }
  | .stop => some { s with stopped := true }
  | .exit i =>
    match s.workers[i]? with
    | none => none
    | some _ => if s.stopped then some (s.setWorker i .gone) else none

abbrev run : Session → List Event → Option Session := StepRun.run step

end Session

/-! ## Who reads a segment -/

/-- 1 for a worker that reads segment `sid`. -/
def Worker.holds (sid : Nat) (x : Worker) : Nat := if x = .holding sid then 1 else 0

@[simp] theorem holds_idle (sid : Nat) : Worker.holds sid .idle = 0 := rfl
@[simp] theorem holds_gone (sid : Nat) : Worker.holds sid .gone = 0 := rfl

theorem holds_holding (sid i : Nat) :
    Worker.holds i (.holding sid) = if sid = i then 1 else 0 := by
  simp [Worker.holds]

/-- How many workers read segment `sid`. -/
def Session.readers (s : Session) (sid : Nat) : Nat := total (Worker.holds sid) s.workers

theorem holds_after (a : Assignment) (sid : Nat) :
    Worker.holds sid (.after a) = if a.seg? = some sid then 1 else 0 := by
  cases a with
  | work seg from_ end_ => simp [Worker.after, Assignment.seg?, Worker.holds]
  | park ms => rfl
  | retire => rfl
  | done => rfl

theorem holds_eq (x : Worker) (sid : Nat) :
    x.holds sid = if x.seg? = some sid then 1 else 0 := by
  cases x with
  | idle => rfl
  | holding seg => simp [Worker.seg?, Worker.holds]
  | gone => rfl

variable {s : Session} {i : Nat} {x : Worker}

theorem le_readers (hx : s.workers[i]? = some x) (sid : Nat) :
    x.holds sid ≤ s.readers sid := le_total (List.mem_of_getElem? hx)

theorem readers_setWorker (hx : s.workers[i]? = some x) (y : Worker) (sid : Nat) :
    (s.setWorker i y).readers sid = s.readers sid - x.holds sid + y.holds sid := by
  have hset := total_set (f := Worker.holds sid) hx y
  have hle := le_readers hx sid
  simp only [Session.readers, Session.setWorker] at hle ⊢
  omega

/-- Who reads what after a request for work. -/
theorem readers_next (hx : s.workers[i]? = some x) (failed : Bool) (failures : UInt32)
    (now sid : Nat) :
    let released := x.seg?.map fun seg => (seg, failed)
    let r := s.w.nextWork released failures now
    ({ s with w := r.1 }.setWorker i (.after r.2)).readers sid =
      s.readers sid - (if released.map Prod.fst = some sid then 1 else 0) +
        if r.2.seg? = some sid then 1 else 0 := by
  intro released r
  have hworker := readers_setWorker (s := { s with w := r.1 }) hx (.after r.2) sid
  rw [holds_eq x, holds_after] at hworker
  rw [hworker]
  simp only [released, Option.map_map, Function.comp_def, Option.map_id']
  rfl

/-- Two workers that read the same segment are counted twice. -/
theorem two_le_readers {j sid : Nat} (hij : i ≠ j) (hi : s.workers[i]? = some (.holding sid))
    (hj : s.workers[j]? = some (.holding sid)) : 2 ≤ s.readers sid := by
  have hset := total_set (f := Worker.holds sid) hi .gone
  have hj' : (s.workers.set i .gone)[j]? = some (.holding sid) := by
    rw [List.getElem?_set_ne hij]
    exact hj
  have hle := le_total (f := Worker.holds sid) (List.mem_of_getElem? hj')
  rw [holds_holding, if_pos rfl] at hle
  rw [holds_holding, if_pos rfl, holds_gone] at hset
  unfold Session.readers
  omega

/-! ## Statements about the extents of the segments -/

theorem Session.file_step {s' : Session} {e : Event} (he : s.step e = some s') :
    s'.file = s.file ++ s.wrote e := by
  cases e with
  | write =>
    obtain rfl := Option.some.inj he
    rfl
  | saveCtrl | adaptive | joined | stop =>
    obtain rfl := Option.some.inj he
    exact (List.append_nil _).symm
  | next | fatal =>
    simp only [Session.step] at he
    split at he
    · cases he
    · cases he
    · obtain rfl := Option.some.inj he
      exact (List.append_nil _).symm
  | spawn =>
    simp only [Session.step] at he
    split at he
    · cases he
    · obtain rfl := Option.some.inj he
      exact (List.append_nil _).symm
  | exit =>
    simp only [Session.step] at he
    split at he
    · cases he
    · split at he
      · obtain rfl := Option.some.inj he
        exact (List.append_nil _).symm
      · cases he

/-- What is said of a table and of the bytes written, and is kept by cuts, by writes, and by all
that leaves the extents of the segments alone. -/
structure Ledger (I : Table → List Span → Prop) : Prop where
  cut : ∀ {b file sid s k t now}, I b file → b.segs[sid]? = some s → k < s.remaining →
    I (b.cut sid s k t now) file
  same : ∀ {b b' file}, I b file → SameExtents b b' → I b' file
  land : ∀ {b file sid s now} {offset n : UInt64}, I b file → b.segs[sid]? = some s →
    offset = s.start + s.written → n ≤ s.remaining →
    s.start.toNat + s.written.toNat = offset.toNat → offset.toNat + n.toNat ≤ s.end_.toNat →
    I (b.land sid s n now) (file ++ [⟨offset.toNat, offset.toNat + n.toNat⟩])

namespace Ledger
variable {I : Table → List Span → Prop} (hI : Ledger I) {w : Writer} {file : List Span}
include hI

theorem recut (h : I w.table file) {b' : Table} (hr : Recut w.table b') : I b' file :=
  hr.invariant (I := fun b => I b file) (fun _ _ _ _ _ _ hs hk h => hI.cut h hs hk) h

theorem takeWork (h : I w.table file) (failures : UInt32) (now : Nat) :
    I (w.takeWork failures now).1.table file := by
  rcases takeWork_cases w failures now with
    ⟨sid, s, rest, -, hs, ht, -⟩ | ⟨-, -, sid, s, k, hs, -, -, hk, ht, -⟩ |
    ⟨-, -, ht, -⟩
  · rw [ht]
    exact hI.same h (sameExtents_take rest now hs)
  · rw [ht]
    -- first the cut, then the dispatch of the new segment
    have hempty : SameExtents w.table { w.table with queue := [] } := ⟨rfl, rfl, rfl, rfl, rfl⟩
    exact hI.same (hI.cut (hI.same h hempty) hs hk)
      (sameExtents_take _ now (getElem?_cut_new ..))
  · rw [ht]
    exact hI.same h ⟨rfl, rfl, rfl, rfl, rfl⟩

theorem nextWork (h : I w.table file) (released : Option (Nat × Bool)) (failures : UInt32)
    (now : Nat) : I (w.nextWork released failures now).1.table file := by
  have hrel : I (released.elim w fun r => w.release r.1).table file := by
    cases released with
    | none => exact h
    | some r => exact hI.same h (sameExtents_release w r.1)
  unfold Writer.nextWork
  dsimp only
  split
  · exact hrel
  · exact hI.takeWork (hI.recut hrel (recut_reclaimStalled _ now)) failures now

/-- **Ledger rule.**  One step of the session, with the bytes it writes. -/
theorem step {s s' : Session} {e : Event} (h : I s.w.table file) (he : s.step e = some s') :
    I s'.w.table (file ++ s.wrote e) := by
  cases e with
  | write seg offset data io now =>
    obtain rfl := Option.some.inj he
    dsimp only [Session.wrote]
    rcases onWrite_cases s.w seg offset data io now with
      ⟨f, ht, -, hfile⟩ | ⟨g, n, hg, hoffset, hn, -, hlen, hat, hend, ht, hfile⟩
    · rw [ht, hfile, Option.toList_none, List.map_nil, List.append_nil]
      exact hI.same h ⟨rfl, rfl, rfl, rfl, rfl⟩
    · rw [ht, hfile]
      simp only [Option.toList_some, List.map_cons, List.map_nil, writeSpan, List.length_take,
        Nat.min_eq_left hlen]
      exact hI.land h hg hoffset hn hat hend
  | next i failed failures now =>
    simp only [Session.step] at he
    split at he
    · cases he
    · cases he
    · obtain rfl := Option.some.inj he
      show I _ (file ++ [])
      rw [List.append_nil]
      exact hI.nextWork h _ failures now
  | fatal i err =>
    simp only [Session.step] at he
    split at he
    · cases he
    · cases he
    · obtain rfl := Option.some.inj he
      show I _ (file ++ [])
      rw [List.append_nil]
      refine hI.same h ?_
      simp only [Session.setWorker, Writer.setFatal]
      split
      · exact ⟨rfl, rfl, rfl, rfl, rfl⟩
      · exact ⟨rfl, rfl, rfl, rfl, rfl⟩
  | saveCtrl now =>
    obtain rfl := Option.some.inj he
    show I _ (file ++ [])
    rw [List.append_nil]
    exact hI.recut (hI.recut h (recut_reclaimStalled s.w now))
      (recut_watchdogRequeueStalled _ now)
  | adaptive action now =>
    obtain rfl := Option.some.inj he
    show I _ (file ++ [])
    rw [List.append_nil]
    exact hI.recut h (recut_applyAdaptiveAction s.w action now)
  | spawn =>
    simp only [Session.step] at he
    split at he
    · cases he
    · obtain rfl := Option.some.inj he
      show I _ (file ++ [])
      rw [List.append_nil]
      exact h
  | joined =>
    obtain rfl := Option.some.inj he
    show I _ (file ++ [])
    rw [List.append_nil]
    exact h
  | stop =>
    obtain rfl := Option.some.inj he
    show I _ (file ++ [])
    rw [List.append_nil]
    exact h
  | exit i =>
    simp only [Session.step] at he
    split at he
    · cases he
    · split at he
      · obtain rfl := Option.some.inj he
        show I _ (file ++ [])
        rw [List.append_nil]
        exact h
      · cases he

end Ledger
end XferRust.Split
