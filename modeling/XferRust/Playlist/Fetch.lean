import XferRust.Lib.ByteFile
import XferRust.Playlist.Media

/-! # Loading one segment

A segment is asked for as often as the retries allow.  What comes goes to memory, if it has to be
decrypted as a whole or waits for the segments before it, or to a file of its own, behind what the
file holds already: then only the rest is asked for.  A server may send the whole segment all the
same, and the file is emptied first.

The network is a list of events: an answer with or without the range that was asked for, a chunk,
the end of the body, an error at any point.  A write to the file may end after any of its bytes.
-/
namespace XferRust.Playlist

/-- The errors of a segment (`HttpError`). -/
inductive FetchError where
  | connect
  | timeout
  | http (code : Nat)
  | protocol
  | shortRead
  | io
  | cancelled
  deriving DecidableEq

/-- `is_retryable`. -/
def FetchError.isRetryable : FetchError → Bool
  | .timeout => true
  | .connect => true
  | .protocol => true
  | .shortRead => true
  | .http code => code ≥ 500
  | .io => false
  | .cancelled => false

/-- `is_retryable_segment`. -/
def FetchError.isRetryableSegment : FetchError → Bool
  | .http code => [408, 425, 429].contains code || decide (code ≥ 500)
  | e => e.isRetryable

/-! ## The file of a segment -/

/-- `SegFile`: an open file, by the bytes it counts and the place it writes to. -/
structure SegFile where
  written : Nat
  pos : Nat

namespace SegFile

/-- `open`: the bytes of the file, and the handle. -/
def openFile (file : Option (List UInt8)) (truncate : Bool) : List UInt8 × SegFile :=
  let bytes := if truncate then [] else file.getD []
  (bytes, { written := bytes.length, pos := bytes.length })

/-- `append`. -/
def append (f : SegFile) (bytes data : List UInt8) : List UInt8 × SegFile :=
  (ByteFile.writeAt 0 bytes f.pos data,
    { written := f.written + data.length, pos := f.pos + data.length })

/-- `reset`: the file is emptied, and the place it writes to stays. -/
def reset (f : SegFile) : List UInt8 × SegFile := ([], { f with written := 0 })

end SegFile

/-! ## A load -/

/-- `SegTarget`. -/
inductive SegTarget where
  | mem (buf : List UInt8)
  | disk (f : SegFile)

/-- `SegBody`. -/
structure SegBody where
  data : List UInt8
  whole : Bool
  onDisk : Nat

/-- Where a load is. -/
inductive FetchState where
  /-- In front of an attempt. -/
  | ready
  /-- The request is out. -/
  | sent
  /-- The body is read; `whole`: it starts at the segment's first byte although the rest was asked
  for. -/
  | reading (whole : Bool)
  | ended (r : Except FetchError SegBody)

/-- A load of a segment (`fetch_segment`). -/
structure Fetch where
  target : SegTarget
  resumeFrom : Nat := 0
  attempt : Nat := 1
  state : FetchState := .ready

/-- What a load does to the file of its segment. -/
structure FileEffect where
  /-- The new bytes of the file. -/
  bytes : Option (List UInt8) := none
  /-- What `spilled` gains. -/
  gained : Nat := 0
  /-- What `spilled` loses. -/
  lost : Nat := 0
  /-- A write has failed in the middle. -/
  torn : Bool := false

/-- What can happen to a load. -/
inductive FetchEvent where
  /-- An attempt is made. -/
  | begin
  /-- A successful answer, with the range (206) or without it. -/
  | answer (ranged : Bool)
  | chunk (data : List UInt8)
  /-- The file takes the first `n` bytes of a chunk and then fails. -/
  | chunkTorn (data : List UInt8) (n : Nat)
  /-- The end of the body. -/
  | finish
  /-- Any other error: of the key, the connection, the status, a timeout, or a cancellation. -/
  | fail (e : FetchError)
  deriving DecidableEq

namespace Fetch

variable (retries : Nat) (decrypt : SegmentKey → List UInt8 → Option (List UInt8))

/-- An attempt has ended with an error. -/
def failed (f : Fetch) (e : FetchError) : Fetch :=
  if e.isRetryableSegment ∧ f.attempt < max retries 1 then
    { f with attempt := f.attempt + 1, state := .ready }
  else { f with state := .ended (.error e) }

/-- The start of an attempt: memory is cleared, a file is gone on with. -/
def begin (f : Fetch) : Fetch :=
  match f.target with
  | .mem _ => { f with target := .mem [], state := .sent }
  | .disk h => { f with resumeFrom := h.written, state := .sent }

/-- The answer of the server. -/
def answer (f : Fetch) (ranged : Bool) : Fetch × FileEffect :=
  let whole := decide (f.resumeFrom > 0) && !ranged
  let f := { f with state := .reading whole }
  match whole, f.target with
  | true, .disk h =>
    ({ f with target := .disk h.reset.2 }, { bytes := some h.reset.1, lost := h.written })
  | _, _ => (f, {})

/-- A chunk of the body. -/
def chunk (f : Fetch) (bytes data : List UInt8) : Fetch × FileEffect :=
  match f.target with
  | .mem buf => ({ f with target := .mem (buf ++ data) }, {})
  | .disk h =>
    let (bytes, h) := h.append bytes data
    ({ f with target := .disk h }, { bytes := some bytes, gained := data.length })

/-- The body has the length that the playlist says. -/
def sizeFits (seg : Segment) (f : Fetch) (whole : Bool) (got : Nat) : Bool :=
  match seg.size with
  | none => true
  | some total =>
    match f.target with
    | .disk _ => got = total
    | .mem _ => got = if whole then total else total - f.resumeFrom

/-- Behind the last chunk. -/
def finish (seg : Segment) (f : Fetch) (whole : Bool) : Fetch :=
  let (data, onDisk, got) := match f.target with
    | .mem buf => (buf, 0, buf.length)
    | .disk h => ([], h.written, h.written)
  let taken : Fetch := match f.target with
    | .mem _ => { f with target := .mem [] }
    | .disk _ => f
  if sizeFits seg f whole got then
    match seg.key with
    | none => { taken with state := .ended (.ok { data, whole, onDisk }) }
    | some k =>
      match decrypt k data with
      | some plain =>
        { taken with state := .ended (.ok { data := plain, whole := false, onDisk := 0 }) }
      | none => taken.failed retries .protocol
  else taken.failed retries .shortRead

/-- One step of a load; `bytes` is what the file of the segment holds. -/
def step (seg : Segment) (cancelled : Bool) (f : Fetch) (bytes : List UInt8) :
    FetchEvent → Option (Fetch × FileEffect)
  | .begin =>
    match f.state with
    | .ready => if cancelled then none else some (f.begin, {})
    | _ => none
  | .answer ranged =>
    match f.state with
    | .sent => some (f.answer ranged)
    | _ => none
  | .chunk data =>
    match f.state with
    | .reading _ => if data = [] then none else some (f.chunk bytes data)
    | _ => none
  | .chunkTorn data n =>
    match f.state, f.target with
    | .reading _, .disk h =>
      if n < data.length then
        some ({ f with state := .ended (.error .io) },
          { bytes := some (h.append bytes (data.take n)).1, torn := decide (0 < n) })
      else none
    | _, _ => none
  | .finish =>
    match f.state with
    | .reading whole => some (f.finish retries decrypt seg whole, {})
    | _ => none
  | .fail e =>
    match f.state with
    | .ended _ => none
    | _ =>
      if e = .cancelled ∧ cancelled = false then none else some (f.failed retries e, {})

end Fetch

end XferRust.Playlist
