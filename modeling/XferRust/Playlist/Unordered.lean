import Mathlib.Logic.Function.Basic
import XferRust.Playlist.Fetch
import XferRust.Playlist.Leftovers

/-! # The unordered download of a playlist

Each segment is loaded into a file of its own, and as soon as the next one is complete it goes into
the product and its file is removed.  The loop has three parts, one behind the other: splicing,
dispatching, and waiting for the end of one load; loads go on while it waits.  Behind the loop what
is complete is spliced once more.

A run is a list of events.  They decide what the code does not: what the network and the disk do,
and whether it is time for the control file to be saved.
-/
namespace XferRust.Playlist

/-- Where the run is. -/
inductive UnorderedPhase where
  /-- The segments that are ready are spliced; so many bytes in this batch. -/
  | splicing (now : Nat)
  | dispatching
  | waiting
  /-- Behind the loop. -/
  | tail
  /-- The end: none for a success. -/
  | closed (error : Option FetchError)
  deriving DecidableEq

/-- A run of `download_playlist_unordered`. -/
structure Unordered where
  plan : PlaylistPlan
  /-- What the sink was given. -/
  product : List UInt8
  segFiles : Nat → Option (List UInt8)
  ctrl : Option PlaylistCtrl
  stats : PlaylistStats
  done : List Bool
  written : Nat
  nextSpawn : Nat
  /-- The loads that have not been joined (`futs`). -/
  fetches : Nat → Option Fetch := fun _ => none
  inFlight : Nat := 0
  failure : Option FetchError := none
  segErr : Option FetchError := none
  cancelled : Bool := false
  phase : UnorderedPhase := .splicing 0
  /-- A write has failed in the middle. -/
  torn : Bool := false

structure UnorderedOptions where
  conn : Nat := 4
  retries : Nat := 3

/-- What the disk makes of the plain text of a segment with a key. -/
inductive PlainWrite where
  | whole
  | notOpened
  /-- The write fails behind `n` bytes. -/
  | torn (n : Nat)
  deriving DecidableEq

inductive UnorderedEvent where
  /-- The next segment is spliced, and its file is removed if it can be. -/
  | splice (removed : Bool)
  /-- The splicing fails behind `n` bytes. -/
  | spliceTorn (n : Nat)
  /-- Splicing is over for this turn; `saved`: it was time for the control file, and the sink could
  be flushed or not. -/
  | settle (saved : Option Bool)
  /-- The next load is started, if its file can be opened. -/
  | dispatch (opened : Bool)
  | wait
  | fetch (i : Nat) (e : FetchEvent)
  /-- A load that has ended is joined. -/
  | join (i : Nat) (write : PlainWrite) (saved : Option Bool)
  /-- There is no load left. -/
  | drained
  | cancel
  /-- The end of the run, when the sink can be flushed or not. -/
  | close (flushed : Bool)
  deriving DecidableEq

namespace Unordered

variable (digest : List UInt8 → String) (parse : String → Option Address)
  (decrypt : SegmentKey → List UInt8 → Option (List UInt8)) (opts : UnorderedOptions)

/-- `SPLICE_BATCH_BYTES`. -/
def batchBytes : Nat := 33554432

/-- `fetch_sub` of a 64-bit counter. -/
def wrappingSub (a b : Nat) : Nat := if b ≤ a then a - b else 18446744073709551616 + a - b

/-- The start of a run. -/
def begin (disk : PlaylistDisk) (plan : PlaylistPlan) : Unordered :=
  let st := startUnordered digest parse disk plan
  { plan, product := st.product, segFiles := st.segFiles, ctrl := disk.ctrl, stats := st.stats
    done := st.done, written := st.written, nextSpawn := st.written }

/-- `all.len()`. -/
def count (s : Unordered) : Nat := s.plan.all.length

/-- The segment `i` is complete and not spliced. -/
def isDone (s : Unordered) (i : Nat) : Bool := s.done[i]?.getD false

/-- The next segment is to be spliced. -/
def canSplice (s : Unordered) : Bool :=
  decide (s.written < s.count) && s.isDone s.written && s.failure.isNone

/-- `splice_seg` and the counters behind it. -/
def spliceSeg (s : Unordered) (removed : Bool) : Unordered × Nat :=
  let data := (s.segFiles s.written).getD []
  let product := s.product ++ data
  ({ s with
      product
      segFiles := if removed then Function.update s.segFiles s.written none else s.segFiles
      done := s.done.set s.written false
      written := s.written + 1
      stats :=
        { s.stats with completed := product.length, spilled := s.stats.spilled - data.length } },
    data.length)

/-- `splice_seg` fails in the middle. -/
def spliceTorn (s : Unordered) (n : Nat) : Unordered :=
  { s with
    product := s.product ++ ((s.segFiles s.written).getD []).take n
    failure := some .io
    torn := s.torn || decide (0 < n) }

/-- The control file of this moment. -/
def ctrlNow (s : Unordered) : PlaylistCtrl :=
  ctrlOf digest parse s.plan s.written s.product.length 0 "unordered" s.done

/-- The control file is saved if it is time and the sink can be flushed. -/
def save (s : Unordered) : Option Bool → Unordered
  | none => s
  | some true => { s with ctrl := some (s.ctrlNow digest parse) }
  | some false => { s with failure := some .io }

/-- Behind the splicing of a turn. -/
def settle (s : Unordered) (now : Nat) (saved : Option Bool) : Unordered :=
  if s.failure.isSome || decide (s.written = s.count) then { s with phase := .tail }
  else
    let s := if now = 0 then s else s.save digest parse saved
    if s.failure.isSome then { s with phase := .tail }
    else if now ≥ batchBytes then { s with phase := .splicing 0 }
    else { s with phase := .dispatching }

/-- The next load is started. -/
def dispatch (s : Unordered) (opened : Bool) : Unordered :=
  let i := s.nextSpawn
  let s := { s with nextSpawn := i + 1 }
  if s.isDone i then s
  else if ¬ opened then { s with failure := some .io, phase := .tail }
  else
    let (bytes, handle) := SegFile.openFile (s.segFiles i) (decide (fileLen (s.segFiles i) = 0))
    let target := if s.plan.plainAt i then SegTarget.disk handle else SegTarget.mem []
    { s with
      segFiles := Function.update s.segFiles i (some bytes)
      fetches := Function.update s.fetches i (some { target })
      inFlight := s.inFlight + 1 }

/-- There is room for a load and a segment to load. -/
def canDispatch (s : Unordered) : Bool :=
  decide (s.inFlight < opts.conn) && decide (s.nextSpawn < s.count)

/-- What a load does to the file of its segment, and the count of it. -/
def touch (s : Unordered) (i : Nat) (effect : FileEffect) : Unordered :=
  { s with
    segFiles := match effect.bytes with
      | some bytes => Function.update s.segFiles i (some bytes)
      | none => s.segFiles
    stats :=
      { s.stats with spilled := wrappingSub (s.stats.spilled + effect.gained) effect.lost }
    torn := s.torn || effect.torn }

/-- A segment is complete. -/
def markDone (s : Unordered) (i : Nat) (saved : Option Bool) : Unordered :=
  let s := { s with done := s.done.set i true, phase := .splicing 0 }.save digest parse saved
  if s.failure.isSome then { s with phase := .tail } else s

/-- A load has brought its segment. -/
def joinOk (s : Unordered) (i : Nat) (body : SegBody) (write : PlainWrite) (saved : Option Bool) :
    Unordered :=
  if body.onDisk = 0 then
    match write with
    | .whole =>
      { s with
        segFiles := Function.update s.segFiles i (some body.data)
        stats := { s.stats with spilled := s.stats.spilled + body.data.length } }.markDone
        digest parse i saved
    | .notOpened => { s with failure := some .io, phase := .tail }
    | .torn n =>
      { s with
        segFiles := Function.update s.segFiles i (some (body.data.take n))
        failure := some .io, phase := .tail, torn := true }
  else s.markDone digest parse i saved

/-- A load has failed: the run goes on with the other segments, unless the disk has failed or it
is cancelled. -/
def joinErr (s : Unordered) (e : FetchError) : Unordered :=
  if e = .io ∨ e = .cancelled then { s with failure := some e, phase := .tail }
  else { s with segErr := s.segErr.or (some e), phase := .splicing 0 }

/-- Behind the loop and the last splicing. -/
def close (s : Unordered) (flushed : Bool) : Unordered :=
  let failure := if flushed then s.failure else s.failure.or (some .io)
  match failure with
  | some e => { s with ctrl := some (s.ctrlNow digest parse), phase := .closed (some e) }
  | none =>
    if s.written = s.count then
      { s with segFiles := fun _ => none, ctrl := none, phase := .closed none }
    else
      { s with
        ctrl := some (s.ctrlNow digest parse), phase := .closed (some (s.segErr.getD .protocol)) }

/-- A load is joined. -/
def without (s : Unordered) (i : Nat) : Unordered :=
  { s with fetches := Function.update s.fetches i none, inFlight := s.inFlight - 1 }

def step (s : Unordered) (e : UnorderedEvent) : Option Unordered :=
  match s.phase, e with
  | .closed _, _ => none
  | _, .cancel => some { s with cancelled := true }
  | .splicing now, .splice removed =>
    if s.canSplice && decide (now < batchBytes) && (s.segFiles s.written).isSome then
      some { (s.spliceSeg removed).1 with phase := .splicing (now + (s.spliceSeg removed).2) }
    else none
  | .splicing now, .spliceTorn n =>
    if s.canSplice && decide (now < batchBytes) then some (s.spliceTorn n) else none
  | .splicing now, .settle saved =>
    if s.canSplice && decide (now < batchBytes) then none
    else some (s.settle digest parse now saved)
  | .dispatching, .dispatch opened =>
    if s.canDispatch opts then some (s.dispatch opened) else none
  | .dispatching, .wait => if s.canDispatch opts then none else some { s with phase := .waiting }
  | .waiting, .fetch i e =>
    match s.fetches i, s.plan.all[i]? with
    | some f, some seg =>
      (f.step opts.retries decrypt seg s.cancelled ((s.segFiles i).getD []) e).map fun r =>
        { s with fetches := Function.update s.fetches i (some r.1) }.touch i r.2
    | _, _ => none
  | .waiting, .join i write saved =>
    match s.fetches i with
    | some { state := .ended r, .. } =>
      match r with
      | .ok body => some ((s.without i).joinOk digest parse i body write saved)
      | .error e => some ((s.without i).joinErr e)
    | _ => none
  | .waiting, .drained =>
    if s.inFlight = 0 then
      some { s with
        failure := if s.segErr.isNone && decide (s.written < s.count) then some .protocol
          else s.failure
        phase := .tail }
    else none
  | .tail, .splice removed =>
    if s.canSplice && (s.segFiles s.written).isSome then some (s.spliceSeg removed).1 else none
  | .tail, .spliceTorn n => if s.canSplice then some (s.spliceTorn n) else none
  | .tail, .settle saved =>
    -- the sink cannot be flushed between two batches
    if s.failure.isNone && saved = some false then some { s with failure := some .io } else none
  | .tail, .close flushed =>
    if s.canSplice then none else some (s.close digest parse flushed)
  | _, _ => none

/-- What a step can do, event by event. -/
inductive Outcome (s : Unordered) : UnorderedEvent → Unordered → Prop where
  | cancel : Outcome s .cancel { s with cancelled := true }
  | splice {removed : Bool} {phase : UnorderedPhase} (open_ : ∀ e, s.phase ≠ .closed e)
      (can : s.canSplice = true) (file : (s.segFiles s.written).isSome = true)
      (phase_ : ∀ e, phase ≠ .closed e) :
      Outcome s (.splice removed) { (s.spliceSeg removed).1 with phase }
  | spliceTorn {n : Nat} (open_ : ∀ e, s.phase ≠ .closed e) (can : s.canSplice = true) :
      Outcome s (.spliceTorn n) (s.spliceTorn n)
  | settle {now : Nat} {saved : Option Bool} (phase_ : s.phase = .splicing now)
      (over_ : s.canSplice = false ∨ batchBytes ≤ now) :
      Outcome s (.settle saved) (s.settle digest parse now saved)
  | flushFails (phase_ : s.phase = .tail) :
      Outcome s (.settle (some false)) { s with failure := some .io }
  | dispatch {opened : Bool} (phase_ : s.phase = .dispatching) (can : s.canDispatch opts = true) :
      Outcome s (.dispatch opened) (s.dispatch opened)
  | wait (phase_ : s.phase = .dispatching) : Outcome s .wait { s with phase := .waiting }
  | fetch {i : Nat} {e : FetchEvent} {f : Fetch} {seg : Segment} {r : Fetch × FileEffect}
      (phase_ : s.phase = .waiting) (load : s.fetches i = some f) (seg_ : s.plan.all[i]? = some seg)
      (step : f.step opts.retries decrypt seg s.cancelled ((s.segFiles i).getD []) e = some r) :
      Outcome s (.fetch i e)
        ({ s with fetches := Function.update s.fetches i (some r.1) }.touch i r.2)
  | joinOk {i : Nat} {write : PlainWrite} {saved : Option Bool} {f : Fetch} {body : SegBody}
      (phase_ : s.phase = .waiting) (load : s.fetches i = some f)
      (ended : f.state = .ended (.ok body)) :
      Outcome s (.join i write saved) ((s.without i).joinOk digest parse i body write saved)
  | joinErr {i : Nat} {write : PlainWrite} {saved : Option Bool} {f : Fetch} {e : FetchError}
      (phase_ : s.phase = .waiting) (load : s.fetches i = some f)
      (ended : f.state = .ended (.error e)) :
      Outcome s (.join i write saved) ((s.without i).joinErr e)
  | drained {failure : Option FetchError} (phase_ : s.phase = .waiting) (none_ : s.inFlight = 0) :
      Outcome s .drained { s with failure, phase := .tail }
  | close {flushed : Bool} (phase_ : s.phase = .tail) (over_ : s.canSplice = false) :
      Outcome s (.close flushed) (s.close digest parse flushed)

variable {digest parse decrypt opts}

theorem step_outcome {s s' : Unordered} {e : UnorderedEvent}
    (h : s.step digest parse decrypt opts e = some s') :
    Outcome digest parse decrypt opts s e s' := by
  unfold step at h
  split at h
  · cases h
  · exact Option.some.inj h ▸ .cancel
  · rename_i now removed hp
    split at h
    · rename_i hif
      rw [Bool.and_eq_true, Bool.and_eq_true] at hif
      exact Option.some.inj h ▸
        .splice (fun r hr => by rw [hp] at hr; cases hr) hif.1.1 hif.2 fun r hr => by cases hr
    · cases h
  · rename_i now n hp
    split at h
    · rename_i hif
      rw [Bool.and_eq_true] at hif
      exact Option.some.inj h ▸ .spliceTorn (fun r hr => by rw [hp] at hr; cases hr) hif.1
    · cases h
  · rename_i now saved hp
    split at h
    · cases h
    · rename_i hif
      refine Option.some.inj h ▸ .settle hp ?_
      by_cases hcan : s.canSplice = true
      · right
        by_contra hlt
        exact hif (by rw [hcan, decide_eq_true (by omega)]; rfl)
      · exact Or.inl (Bool.eq_false_iff.mpr hcan)
  · rename_i opened hp
    split at h
    · rename_i hcan
      exact Option.some.inj h ▸ .dispatch hp hcan
    · cases h
  · rename_i hp
    split at h
    · cases h
    · exact Option.some.inj h ▸ .wait hp
  · rename_i i e hp
    split at h
    · rename_i f seg hf hseg
      obtain ⟨r, hr, rfl⟩ := Option.map_eq_some_iff.mp h
      exact .fetch hp hf hseg hr
    · cases h
  · rename_i i write saved hp
    split at h
    · rename_i target resumeFrom attempt r hf
      split at h
      · exact Option.some.inj h ▸ .joinOk hp hf rfl
      · exact Option.some.inj h ▸ .joinErr hp hf rfl
    · cases h
  · rename_i hp
    split at h
    · rename_i hzero
      exact Option.some.inj h ▸ .drained hp hzero
    · cases h
  · rename_i removed hp
    split at h
    · rename_i hif
      rw [Bool.and_eq_true] at hif
      have hopen : ∀ r, s.phase ≠ .closed r := fun r hr => by rw [hp] at hr; cases hr
      exact Option.some.inj h ▸ .splice hopen hif.1 hif.2 hopen
    · cases h
  · rename_i n hp
    split at h
    · rename_i hcan
      exact Option.some.inj h ▸ .spliceTorn (fun r hr => by rw [hp] at hr; cases hr) hcan
    · cases h
  · rename_i saved hp
    split at h
    · rename_i hif
      rw [Bool.and_eq_true, decide_eq_true_eq] at hif
      obtain rfl := hif.2
      exact Option.some.inj h ▸ .flushFails hp
    · cases h
  · rename_i flushed hp
    split at h
    · cases h
    · rename_i hcan
      exact Option.some.inj h ▸ .close hp (Bool.eq_false_iff.mpr hcan)
  · cases h

end Unordered

end XferRust.Playlist
