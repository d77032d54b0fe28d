import XferRust.Split.Bootstrap

/-! # The split download's writer: commands

The commands of `writer_loop`: writes, dispatch of work with steals and lease reclaims, the
heartbeat with its watchdog, and the scheduler's actions.  All run on one thread, one after
the other.  `now` is the instant a command runs at.
-/
namespace XferRust.Split

/-- `Assignment`: the answer to a worker that asks for work. -/
inductive Assignment
  | work (seg : Nat) (from_ : UInt64) (end_ : UInt64)
  | park (ms : UInt64)
  | retire
  | done

/-- `ScheduleAction`. -/
inductive ScheduleAction
  | maintain
  | grow (extraBytes : UInt64)
  | shrink (connId : Nat) (reclaimBytes : UInt64)
  | retire (connId : Nat)
  | spawn

/-- Twice a number, or the largest number. -/
def satDouble (a : UInt64) : UInt64 :=
  if a.toNat * 2 < 18446744073709551616 then a * 2 else 18446744073709551615

namespace Writer

/-- Segment `i` becomes `s`. -/
def setSeg (w : Writer) (i : Nat) (s : Seg) : Writer := { w with segs := w.segs.set i s }

/-- `set_fatal`: the first error counts. -/
def setFatal (w : Writer) (err : HttpError) : Writer :=
  if w.fatal.isNone then { w with fatal := some err } else w

/-! ## Writes -/

/-- The number of bytes of a write of `len` bytes at `offset` that segment `s` accepts: none,
unless the write continues at the watermark. -/
def acceptedLen (s : Seg) (offset : UInt64) (len : Nat) : Nat :=
  if offset < s.start || offset ≥ s.end_ || offset - s.start ≠ s.written then 0
  else min (s.end_ - offset).toNat len

/-- `on_write`, after `n` bytes at `offset` of segment `sid`, which is `s`, have been written to
the file. -/
def landed (w : Writer) (sid : Nat) (s : Seg) (offset n : UInt64) (now : Nat) : Writer :=
  let written := offset + n - s.start
  let todo := w.todo - n
  { w with
    segs := w.segs.set sid
      { s with written, lastProgress := now, done := s.done || written = s.end_ - s.start }
    completed := w.completed + n
    pieces := w.pieces ++ [(offset, n)]
    todo
    lastProgress := now
    finished := w.finished || todo = 0 }

/-- `on_write` of `data` at `offset`; `io` is the error of the write to the file, if it fails.
The result is the writer and what was written to the file. -/
def onWrite (w : Writer) (sid : Nat) (offset : UInt64) (data : List UInt8) (io : Option String)
    (now : Nat) : Writer × Option (UInt64 × List UInt8) :=
  if w.fatal.isSome then (w, none)
  else
    match w.segs[sid]? with
    | none => (w, none)
    | some s =>
      let n := acceptedLen s offset data.length
      if n = 0 then (w, none)
      else
        match io with
        | some msg => (w.setFatal (.io msg), none)
        | none => (w.landed sid s offset (UInt64.ofNat n) now, some (offset, data.take n))

/-! ## Cutting segments -/

/-- `effective_min_split`. -/
def effectiveMinSplit (w : Writer) : UInt64 :=
  if w.todo ≤ endgameThreshold then min w.opts.minSplitSize endgameMinSplit
  else w.opts.minSplitSize

/-- `split_off`: `[cut, end)` of segment `sid`, which is `s`, becomes a new queued segment. -/
def splitOff (w : Writer) (sid : Nat) (s : Seg) (cut : UInt64) (now : Nat) : Writer :=
  { w with
    segs := w.segs.set sid { s with end_ := cut, endShared := cut } ++ [.fresh cut s.end_ now]
    queue := w.queue ++ [w.segs.length] }

/-- A segment `try_steal` may take from: neither finished nor queued, and large enough. -/
def stealable (floor : UInt64) (s : Seg) : Bool :=
  !s.done && !s.queued && s.remaining ≥ floor

/-- The loop over the segments that looks for the one with the most bytes left among those
that satisfy `p`; the first one counts. -/
def largest (p : Seg → Bool) : List Seg → Nat → Option (UInt64 × Nat) → Option (UInt64 × Nat)
  | [], _, best => best
  | s :: segs, i, best =>
    largest p segs (i + 1) <|
      if p s && best.all fun b => s.remaining > b.1 then some (s.remaining, i) else best

/-- The segment `try_steal` takes from. -/
def stealTarget (w : Writer) : Option Nat :=
  (largest (stealable (satDouble w.effectiveMinSplit)) w.segs 0 none).map Prod.snd

/-- `try_steal`: the writer and the number of the new segment. -/
def trySteal (w : Writer) (now : Nat) : Option (Writer × Nat) :=
  match w.stealTarget with
  | none => none
  | some sid =>
    match w.segs[sid]? with
    | none => none
    | some s =>
      let pos := s.start + s.written
      some (w.splitOff sid s (pos + (s.end_ - pos) / 2) now, w.segs.length)

/-- Where `handoff` cuts a segment. -/
def handoffCut (s : Seg) (whole : Bool) : UInt64 :=
  let pos := s.start + s.written
  let remaining := s.end_ - pos
  if whole || remaining ≤ handoffWholeMax then pos else pos + remaining / 2

/-- `handoff`: the writer, and whether anything was handed off. -/
def handoff (w : Writer) (sid : Nat) (whole force : Bool) (now : Nat) : Writer × Bool :=
  match w.segs[sid]? with
  | none => (w, false)
  | some s =>
    let pos := s.start + s.written
    if pos ≥ s.end_ then (w, false)
    else if s.end_ - pos < handoffMin && !force then (w, false)
    else
      let cut := handoffCut s whole
      ((w.splitOff sid s cut now).setSeg sid
        { s with end_ := cut, endShared := cut, lastProgress := now
                 done := s.done || cut = pos }, true)

/-- `ensure_spare`. -/
def ensureSpare (w : Writer) : Writer :=
  let want := min (w.alive + 1) (max w.opts.connections 1)
  if want > w.desiredWorkers then { w with desiredWorkers := want } else w

/-- The loop of `reclaim_stalled` and of the watchdog: segments that satisfy `stalled` are
handed off, in the order of their numbers.  The flag tells whether any was. -/
def handoffAll (stalled : Seg → Bool) (whole force : Bool) (now : Nat) :
    List Nat → Writer → Writer × Bool
  | [], w => (w, false)
  | i :: is, w =>
    if (w.segs[i]?).any stalled then
      let r := w.handoff i whole force now
      let t := handoffAll stalled whole force now is r.1
      (t.1, r.2 || t.2)
    else handoffAll stalled whole force now is w

/-- A segment whose lease has run out. -/
def leaseExpired (now : Nat) (s : Seg) : Bool :=
  !s.done && !s.queued && s.holders > 0 && s.end_ - s.start > s.written &&
    now - s.lastProgress ≥ segLease

/-- `reclaim_stalled`. -/
def reclaimStalled (w : Writer) (now : Nat) : Writer :=
  if w.finished || w.fatal.isSome || w.todo = 0 then w
  else
    let r := handoffAll (leaseExpired now) false false now (List.range w.segs.length) w
    if r.2 then r.1.ensureSpare else r.1

/-- A segment the watchdog takes for stranded. -/
def stranded (s : Seg) : Bool := !s.done && !s.queued && s.end_ - s.start > s.written

/-- `watchdog_requeue_stalled`. -/
def watchdogRequeueStalled (w : Writer) (now : Nat) : Writer :=
  if w.finished || w.fatal.isSome || w.todo = 0 then w
  else if now - w.lastProgress < stallTimeout then w
  else
    let r := handoffAll stranded true true now (List.range w.segs.length) w
    let w := if r.2 then r.1.ensureSpare else r.1
    { w with lastProgress := now }

/-! ## Dispatch -/

/-- The first part of `next_work`: a worker gives its segment back. -/
def release (w : Writer) (sid : Nat) : Writer :=
  match w.segs[sid]? with
  | none => w
  | some s =>
    let s := { s with holders := s.holders - 1 }
    if (!s.done && s.end_ - s.start > s.written) && !s.queued && s.holders = 0 then
      { w with segs := w.segs.set sid { s with queued := true }, queue := w.queue ++ [sid] }
    else w.setSeg sid s

/-- The loop of `next_work` over the queue: the first number of an unfinished segment, and what
is behind it. -/
def popWork (segs : List Seg) : List Nat → Option (Nat × List Nat)
  | [] => none
  | sid :: queue =>
    match segs[sid]? with
    | none => popWork segs queue
    | some s => if s.done then popWork segs queue else some (sid, queue)

/-- A worker takes segment `sid`, which is `s`. -/
def dispatch (w : Writer) (sid : Nat) (s : Seg) (now : Nat) : Writer :=
  w.setSeg sid { s with queued := false, holders := s.holders + 1, lastProgress := now }

/-- `retire_one`. -/
def retireOne (w : Writer) : Writer :=
  { w with alive := w.alive - 1, desiredWorkers := w.alive - 1 }

/-- The end of `next_work`, when there is nothing to take. -/
def idle (w : Writer) (failures : UInt32) : Writer × Assignment :=
  if failures ≥ 2 && w.alive > 1 then (w.retireOne, .retire) else (w, .park parkMs)

/-- The part of `next_work` after the queue has turned out empty: a steal, or nothing. -/
def stealOrIdle (w : Writer) (failures : UInt32) (now : Nat) : Writer × Assignment :=
  match w.trySteal now with
  | none => w.idle failures
  | some (w, sid) =>
    match w.segs[sid]? with
    | none => w.idle failures
    | some s => (w.dispatch sid s now, .work sid s.start s.endShared)

/-- The part of `next_work` after the reclaim. -/
def takeWork (w : Writer) (failures : UInt32) (now : Nat) : Writer × Assignment :=
  match popWork w.segs w.queue with
  | some (sid, queue) =>
    let w := { w with queue }
    match w.segs[sid]? with
    | none => w.idle failures
    | some s => (w.dispatch sid s now, .work sid (s.start + s.written) s.endShared)
  | none => { w with queue := [] }.stealOrIdle failures now

/-- `next_work`. -/
def nextWork (w : Writer) (released : Option (Nat × Bool)) (failures : UInt32) (now : Nat) :
    Writer × Assignment :=
  let w := released.elim w fun r => w.release r.1
  if w.fatal.isSome || w.finished then ({ w with desiredWorkers := 0 }, .done)
  else (w.reclaimStalled now).takeWork failures now

/-! ## The scheduler's actions -/

/-- A segment `shrink_seg` may cut. -/
def shrinkable (floor : UInt64) (s : Seg) : Bool := !s.done && s.remaining ≥ satDouble floor

/-- `find_largest_active_seg`. -/
def findLargestActiveSeg (w : Writer) : Option Nat :=
  (largest (fun s => !s.done && s.remaining > 0) w.segs 0 none).map Prod.snd

/-- The segment `shrink_seg` cuts: the one the scheduler names, or else the largest. -/
def shrinkTarget (w : Writer) (preferred : Nat) : Option Nat :=
  let eligible := shrinkable w.effectiveMinSplit
  if (w.segs[preferred]?).any eligible then some preferred
  else w.findLargestActiveSeg.filter fun i => (w.segs[i]?).any eligible

/-- `shrink_seg`. -/
def shrinkSeg (w : Writer) (preferred : Nat) (reclaimBytes : UInt64) (now : Nat) : Writer :=
  match w.shrinkTarget preferred with
  | none => w
  | some sid =>
    match w.segs[sid]? with
    | none => w
    | some s =>
      let floor := w.effectiveMinSplit
      let remaining := s.end_ - (s.start + s.written)
      if remaining < satDouble floor then w
      else
        let reclaim := max floor (min reclaimBytes (remaining - floor))
        w.splitOff sid s (s.end_ - reclaim) now

/-- `apply_adaptive_action`. -/
def applyAdaptiveAction (w : Writer) (action : ScheduleAction) (now : Nat) : Writer :=
  if !w.adaptiveEnabled then w
  else
    match action with
    | .maintain => w
    | .grow _ => w
    | .shrink connId reclaimBytes => w.shrinkSeg connId reclaimBytes now
    | .retire connId =>
      let r := w.handoff connId false false now
      if r.2 then r.1.ensureSpare else r.1
    | .spawn =>
      let cap := (w.opts.adaptive.map AdaptiveConfig.maxConnections).getD w.opts.connections
      let cap := min (max cap 1) (max (w.segs.length * 2) 1)
      let target := max (min cap (max (w.alive * 2) (w.alive + 1))) w.alive
      if target > w.alive then { w with desiredWorkers := target } else w

/-! ## The control file and the end -/

/-- `serialize_ctrl`, up to JSON. -/
def serializeCtrl (w : Writer) : CtrlFile where
  v := 1
  total := w.total
  base := w.base
  url := w.url
  segs := (w.segs.filter fun s => s.end_ > s.start).map fun s => ⟨s.start, s.written, s.end_⟩

/-- The loop of `contiguous_prefix`. -/
def prefixFrom : UInt64 → List Seg → UInt64
  | cur, [] => cur
  | cur, s :: segs =>
    if s.start > cur then cur
    else
      let reach := s.start + s.written
      let cur := if reach > cur then reach else cur
      if reach < s.end_ then cur else prefixFrom cur segs

/-- `contiguous_prefix`. -/
def contiguousPrefix (w : Writer) : UInt64 :=
  prefixFrom w.base (StableSort.sortByKey (fun s => s.start.toNat) w.segs)

/-- The longest prefix is no shorter than the one the download started with. -/
theorem le_prefixFrom (cur : UInt64) (segs : List Seg) :
    cur.toNat ≤ (prefixFrom cur segs).toNat := by
  induction segs generalizing cur with
  | nil => exact Nat.le_refl _
  | cons s segs ih =>
    unfold prefixFrom
    split
    · exact Nat.le_refl _
    · have hcur : cur.toNat ≤
          (if s.start + s.written > cur then s.start + s.written else cur).toNat := by
        split
        · rename_i h
          exact Nat.le_of_lt (UInt64.lt_iff_toNat_lt.mp h)
        · exact Nat.le_refl _
      dsimp only
      split
      · exact hcur
      · exact Nat.le_trans hcur (ih _)

end Writer
end XferRust.Split
