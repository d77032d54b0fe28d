import XferRust.Flv.Stream
import XferRust.Lib.StepRun

/-! # Recording an FLV stream

`record_flv` connects again and again and appends what `FlvStream` gives out to the product.
What a connection gives out before its first media tag is held back; the control file keeps
the length of the product from which a later run of the recorder goes on.

The clock stays outside: when a read times out, a save is due or a stream has stalled comes as an
event.  So do the file's length at a start (the bytes handed over by the run before it may have
been lost), and whether the control file found there is of the same stream.
-/
namespace XferRust.Flv

/-- `GONE_LIMIT`. -/
def goneLimit : Nat := 6
/-- `EMPTY_LIMIT`. -/
def emptyLimit : Nat := 3

/-- `FlvCtrl`, without the address that `ctrl_matches` compares. -/
structure FlvCtrl where
  bytes : Nat
  liveMs : Nat
  probe : List UInt8

/-- How the loop of `record_flv` is left: with an error, or by an `Exit`. -/
inductive Exit
  | failed
  | ended
  | stalled
  | gone
  | cancelled
deriving DecidableEq

/-- Where the recorder stands: not running, at the head of its loop, reading the body of a response
with the length that it declares, or out of the loop. -/
inductive Phase
  | idle
  | looping
  | connected (declaredLen : Option Nat)
  | leaving (exit : Exit)
deriving DecidableEq

/-- What a request brings: an error worth another try, one that is not, a 404 or 410, or a
response. -/
inductive Reply
  | retry
  | fatal
  | absent
  | response (declaredLen : Option Nat)

structure Recorder where
  phase : Phase
  parser : FlvStream
  pendingOpen : List UInt8
  /-- The bytes handed to the sink. -/
  product : List UInt8
  /-- The run has taken over a control file. -/
  resumed : Bool
  dirty : Bool
  goneStreak : Nat
  emptyStreak : Nat
  runBytes : Nat
  ctrl : Option FlvCtrl

inductive Event
  | start (sameStream : Bool) (diskLen : Nat)
  | cancel
  | stall
  | save
  | connect (reply : Reply)
  | chunk (data : List UInt8)
  /-- The body ends, or reading it fails. -/
  | disconnect (fatal : Bool)
  /-- The recorder returns; the last flush of the sink may fail. -/
  | finish (flushed : Bool)
  /-- The recorder is gone without saving: a cancelled pause, a failed write, the end of the process. -/
  | quit

namespace Recorder

/-- Nothing has been recorded yet. -/
def initial : Recorder where
  phase := .idle
  parser := FlvStream.new 0 0 none
  pendingOpen := []
  product := []
  resumed := false
  dirty := false
  goneStreak := 0
  emptyStreak := 0
  runBytes := 0
  ctrl := none

/-- `ctrl_of` at the sink's position. -/
def ctrlOf (s : Recorder) : FlvCtrl where
  bytes := s.product.length
  liveMs := s.parser.mappedMax
  probe := s.parser.beginProbe.getD []

/-- `save_ctrl`. -/
def saveCtrl (s : Recorder) : Recorder := { s with ctrl := some s.ctrlOf }

/-- The control file that a start takes over. -/
def resume (s : Recorder) (sameStream : Bool) (diskLen : Nat) : Option FlvCtrl :=
  s.ctrl.filter fun c => sameStream && c.bytes ≤ diskLen

/-- The head of `record_flv`. -/
def start (s : Recorder) (sameStream : Bool) (diskLen : Nat) : Recorder :=
  let run := { s with
    phase := .looping, pendingOpen := [], dirty := false, goneStreak := 0, emptyStreak := 0,
    runBytes := 0 }
  match s.resume sameStream diskLen with
  | some c => { run with
      product := s.product.take c.bytes, resumed := true,
      parser := FlvStream.new c.liveMs c.bytes (if c.probe = [] then none else some c.probe) }
  | none => { run with product := [], resumed := false, parser := FlvStream.new 0 0 none }

/-- A request and its reply. -/
def connect (s : Recorder) (reply : Reply) : Recorder :=
  let s := { s with parser := s.parser.beginSegment, pendingOpen := [] }
  match reply with
  | .retry => s
  | .fatal => { s with phase := .leaving .failed }
  | .absent =>
    let s := { s with goneStreak := s.goneStreak + 1 }
    if s.goneStreak ≥ goneLimit then { s with phase := .leaving .gone } else s
  | .response declaredLen =>
    let s := { s with goneStreak := 0 }
    if declaredLen.isSome ∧ s.product ≠ [] then { s with phase := .leaving .gone }
    else { s with phase := .connected declaredLen, runBytes := 0 }

/-- What follows the reading of a body. -/
def endBody (s : Recorder) (declaredLen : Option Nat) : Recorder :=
  if declaredLen.isSome then { s with phase := .leaving .ended }
  else if s.runBytes = 0 then
    let s := { s with emptyStreak := s.emptyStreak + 1 }
    if s.emptyStreak ≥ emptyLimit then { s with phase := .leaving .gone }
    else { s with phase := .looping }
  else { s with emptyStreak := 0, phase := .looping }

/-- The bytes that the parser gives out, held back or handed to the sink. -/
def writeOut (s : Recorder) (buf : List UInt8) : Recorder :=
  if buf = [] then s
  else if s.parser.segMediaSeen ∨ s.pendingOpen.length ≥ openHoldLimit then
    { s with product := s.product ++ s.pendingOpen ++ buf, pendingOpen := [], dirty := true }
  else { s with pendingOpen := s.pendingOpen ++ buf, dirty := true }

/-- One round of the reading loop. -/
def chunk (s : Recorder) (declaredLen : Option Nat) (data : List UInt8) : Recorder :=
  let s := { s with runBytes := s.runBytes + data.length }
  match s.parser.feed data with
  | none =>
    if s.product = [] ∧ ¬s.resumed then { s with phase := .idle }
    else
      { s with parser := FlvStream.new s.parser.mappedMax 1 s.parser.beginProbe }.endBody declaredLen
  | some (parser, buf) =>
    let s := { s with parser }
    if parser.replay then { s with phase := .leaving .ended }
    else
      let s := s.writeOut buf
      if declaredLen.any (· ≤ s.runBytes) then s.endBody declaredLen else s

/-- The tail of `record_flv`. -/
def finish (s : Recorder) (exit : Exit) (flushed : Bool) : Recorder :=
  let s := { s with phase := .idle }
  match exit with
  | .failed => if flushed then s.saveCtrl else s
  | .cancelled => s.saveCtrl
  | .stalled | .gone | .ended =>
    if !flushed then s.saveCtrl
    else if s.product = [] then s
    else { s with ctrl := none }

/-- The system of the recorder, its product and its control file. -/
def step (s : Recorder) : Event → Option Recorder
  | .start sameStream diskLen =>
    if s.phase = .idle ∧ diskLen ≤ s.product.length then some (s.start sameStream diskLen) else none
  | .cancel =>
    match s.phase with
    | .looping | .connected _ => some { s with phase := .leaving .cancelled }
    | _ => none
  | .stall => if s.phase = .looping then some { s with phase := .leaving .stalled } else none
  | .save =>
    if s.phase = .looping ∧ s.dirty then some { s.saveCtrl with dirty := false } else none
  | .connect reply => if s.phase = .looping then some (s.connect reply) else none
  | .chunk data =>
    match s.phase with
    | .connected declaredLen => if data = [] then none else some (s.chunk declaredLen data)
    | _ => none
  | .disconnect fatal =>
    match s.phase with
    | .connected declaredLen =>
      some (if fatal then { s with phase := .leaving .failed } else s.endBody declaredLen)
    | _ => none
  | .finish flushed =>
    match s.phase with
    | .leaving exit => some (s.finish exit flushed)
    | _ => none
  | .quit => if s.phase = .idle then none else some { s with phase := .idle }

/-! ## A well-formed product -/

/-- A tag boundary of the product: its start, or where a file of its own ends and tags follow. -/
def IsBoundary (product : List UInt8) (n : Nat) : Prop :=
  n = 0 ∨ n ≤ product.length ∧ IsFile (product.take n) ∧ IsTags (product.drop n)

/-- The product is one header and whole tags, and the control file keeps a tag boundary of it. -/
def WellFormed (s : Recorder) : Prop :=
  (s.product = [] ∨ IsFile s.product) ∧ ∀ c ∈ s.ctrl, IsBoundary s.product c.bytes

/-- The event does not break the recording.  A start finds no control file of a product that it
throws away, unless that one was empty; a connection does not begin while the header is held back;
the tags of a chunk come with their own sizes, and a body that is no FLV does not meet an empty
product that a control file has been taken over for. -/
def Harmless (s : Recorder) : Event → Prop
  | .start sameStream diskLen =>
    ∀ c ∈ s.ctrl, c.bytes = 0 ∨ sameStream = true ∧ c.bytes ≤ diskLen
  | .connect _ => s.product ≠ [] ∨ s.pendingOpen = []
  | .chunk data =>
    s.parser.goodChunk data = true ∧
      (s.product ≠ [] ∨ s.resumed = false ∨ s.parser.started = true ∨
        headerLen (s.parser.buf ++ data) ≠ none)
  | _ => True

instance (s : Recorder) : DecidablePred s.Harmless
  | .start sameStream diskLen =>
    inferInstanceAs (Decidable (∀ c ∈ s.ctrl, c.bytes = 0 ∨ sameStream = true ∧ c.bytes ≤ diskLen))
  | .connect _ => inferInstanceAs (Decidable (_ ∨ _))
  | .chunk _ => inferInstanceAs (Decidable (_ ∧ _))
  | .cancel | .stall | .save | .disconnect _ | .finish _ | .quit => isTrue trivial

/-! ## Boundaries -/

theorem isBoundary_length {product : List UInt8} (h : product = [] ∨ IsFile product) :
    IsBoundary product product.length := by
  cases h with
  | inl h => exact .inl (by rw [h, List.length_nil])
  | inr h =>
    refine .inr ⟨Nat.le_refl _, ?_, ?_⟩
    · rw [List.take_length]
      exact h
    · rw [List.drop_length]
      exact isTags_nil

theorem IsBoundary.append {product tags : List UInt8} {n : Nat} (h : IsBoundary product n)
    (htags : product ≠ [] → IsTags tags) : IsBoundary (product ++ tags) n := by
  cases h with
  | inl h => exact .inl h
  | inr h =>
    obtain ⟨hle, hfile, hrest⟩ := h
    by_cases hp : product = []
    · rw [hp, List.length_nil] at hle
      exact .inl (Nat.le_zero.mp hle)
    · refine .inr ⟨?_, ?_, ?_⟩
      · rw [List.length_append]
        omega
      · rw [List.take_append_of_le_length hle]
        exact hfile
      · rw [List.drop_append_of_le_length hle]
        exact hrest.append (htags hp)

/-- Cut at a boundary, the product is well formed again. -/
theorem IsBoundary.take {product : List UInt8} {n : Nat} (h : IsBoundary product n) :
    (n = 0 ∧ product.take n = [] ∨ 0 < n ∧ IsFile (product.take n)) ∧
      IsBoundary (product.take n) n := by
  cases h with
  | inl h =>
    rw [h, List.take_zero]
    exact ⟨.inl ⟨rfl, rfl⟩, .inl rfl⟩
  | inr h =>
    obtain ⟨hle, hfile, -⟩ := h
    have hlen : (product.take n).length = n := by
      rw [List.length_take]
      omega
    refine ⟨.inr ⟨?_, hfile⟩, ?_⟩
    · have := hfile.length
      omega
    · have hself := isBoundary_length (.inr hfile)
      rw [hlen] at hself
      exact hself

end Recorder

end XferRust.Flv
