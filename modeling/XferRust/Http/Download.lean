import XferRust.Lib.ByteFile
import XferRust.Playlist.Text
import XferRust.Split.Bootstrap

/-! # Downloads over one connection

A resource that cannot be split is loaded over one connection (`download_with`).  When a request or
its body fails, the rest is asked for once more, from the byte that is written next: a server may
send that range, or the whole resource, whose front is then dropped.  Only the first answer may make
the file start anew.

The network is a list of events.  The body of an answer is what its header states, the whole
resource or a range of it, and may end, stall or fail at any byte.  The file is written through a
buffer, whose bytes reach it at any time.
-/
namespace XferRust

/-! ## Errors -/

/-- The errors of a request (`reqwest::Error`). -/
inductive ReqwestError where
  | timeout
  | connect (msg : String)
  | other (msg : String)

namespace Split.HttpError

/-- `from_reqwest`. -/
def fromReqwest : ReqwestError → HttpError
  | .timeout => .timeout
  | .connect msg => .connect msg
  | .other msg => .protocol msg

/-- `is_retryable`. -/
def isRetryable : HttpError → Bool
  | .timeout => true
  | .connect _ => true
  | .protocol _ => true
  | .shortRead => true
  | .http status => status ≥ 500
  | .notSplittable _ => false
  | .notPlaylist => false
  | .notFlv => false
  | .io _ => false
  | .cancelled => false

end Split.HttpError

namespace Http

open Split (HttpError)

/-- `MAX_STALL_ATTEMPTS`. -/
def maxStallAttempts : Nat := 8
/-- `MAX_CONN_ATTEMPTS`. -/
def maxConnAttempts : Nat := 3
/-- `MIN_ATTEMPT_PROGRESS`. -/
def minAttemptProgress : Nat := 1024

/-! ## The header of a range -/

/-- `total_from_content_range`. -/
def totalFromContentRange (value : List Char) : Option Nat :=
  ((value.splitOn '/')[1]?).bind fun total => Playlist.parseU64 (Playlist.trim total)

/-- The header `Content-Range` of the bytes from `first` to `last`. -/
def contentRange (first last : Nat) (total : Option Nat) : List Char :=
  "bytes ".toList ++ Nat.toDigits 10 first ++ '-' :: Nat.toDigits 10 last ++
    '/' :: (match total with | some n => Nat.toDigits 10 n | none => ['*'])

/-! ## The file -/

/-- `SinkMode`. -/
inductive SinkMode where
  | fresh
  | resume (off : Nat)

/-- `ResumeSink` over its `FileSink`: the bytes of the file, the place where the buffer belongs, and
the bytes in it. -/
structure Sink where
  mode : SinkMode
  disk : List UInt8
  off : Nat := 0
  buffer : List UInt8 := []

namespace Sink

/-- `FileSink::create`. -/
def create (s : Sink) : Sink := { s with disk := [], off := 0, buffer := [] }

/-- `FileSink::append_at`. -/
def appendAt (s : Sink) (off : Nat) : Sink := { s with off, buffer := [] }

/-- `begin`. -/
def begin (s : Sink) (restarted : Bool) : Sink :=
  if restarted then s.create
  else match s.mode with
    | .fresh => s.create
    | .resume off => s.appendAt off

/-- `write_chunk`. -/
def write (s : Sink) (data : List UInt8) : Sink := { s with buffer := s.buffer ++ data }

/-- The first `n` bytes of the buffer reach the file. -/
def flush (s : Sink) (n : Nat) : Sink :=
  { s with
    disk := ByteFile.writeAt 0 s.disk s.off (s.buffer.take n)
    off := s.off + (s.buffer.take n).length, buffer := s.buffer.drop n }

/-- What the file holds once the buffer has reached it. -/
def content (s : Sink) : List UInt8 := ByteFile.writeAt 0 s.disk s.off s.buffer

end Sink

/-! ## The download -/

/-- `TransferDone`. -/
structure TransferDone where
  transferred : Nat
  totalLen : Option Nat
  restartedFromZero : Bool

/-- Where a download is. -/
inductive Phase where
  /-- In front of an attempt, or waiting for it. -/
  | ready
  /-- The request is out. -/
  | sent
  /-- The body is read: its first `skip` bytes are dropped, and `body` is still to come. -/
  | reading (skip : Nat) (body : List UInt8)
  | ended (r : Except HttpError TransferDone)

/-- What `download_with` carries. -/
structure Download where
  pos : Nat
  sink : Sink
  began : Bool := false
  restartedFromZero : Bool := false
  totalLen : Option Nat := none
  transferred : Nat := 0
  idleAttempts : Nat := 0
  attemptBytes : Nat := 0
  phase : Phase := .ready

/-- What can happen to a download. -/
inductive Event where
  /-- An attempt is made. -/
  | begin
  | connectFailed (e : ReqwestError)
  /-- `FIRST_BYTE_TIMEOUT`. -/
  | timedOut
  /-- An answer that is no success. -/
  | refused (status : UInt16)
  /-- A 206 with the bytes from `first` to `last`, which may state the total.  The file can be
  opened or not. -/
  | ranged (first last : Nat) (total : Bool) (opens : Bool)
  /-- A 200, with its length or without. -/
  | full (total : Bool) (opens : Bool)
  /-- The next `n` bytes of the body. -/
  | chunk (n : Nat)
  /-- The next `n` bytes of the body, of which the file takes only the first `taken`. -/
  | chunkTorn (n taken : Nat)
  /-- The body fails. -/
  | bodyFailed (e : ReqwestError)
  /-- `READ_IDLE_TIMEOUT`. -/
  | stalled
  /-- The body ends.  The last flush gets through, or fails behind `n` bytes. -/
  | eof (flushed : Bool) (n : Nat)
  /-- Some bytes of the buffer reach the file. -/
  | flushed (n : Nat)
  | cancel

namespace Download

/-- The start of `download_with`. -/
def start (pos : Nat) (sink : Sink) : Download := { pos, sink }

/-- `return Err`. -/
def fail (d : Download) (e : HttpError) : Download := { d with phase := .ended (.error e) }

/-- `stall_retry`. -/
def stallRetry (d : Download) (last : HttpError) (max : Nat) : Download :=
  let d := { d with idleAttempts := d.idleAttempts + 1 }
  if d.idleAttempts > max then d.fail last else { d with phase := .ready }

/-- The head of an attempt. -/
def begin (d : Download) : Download :=
  { d with
    idleAttempts := if d.attemptBytes ≥ minAttemptProgress then 0 else d.idleAttempts
    attemptBytes := 0, phase := .sent }

/-- A successful answer with the total that it states. -/
def answer (d : Download) (isPartial : Bool) (total : Option Nat) (body : List UInt8)
    (opens : Bool) : Download :=
  let d := { d with totalLen := d.totalLen.or total }
  if d.began then { d with phase := .reading (if isPartial then 0 else d.pos) body }
  else
    let restarted := decide (d.pos > 0) && !isPartial
    let d := { d with restartedFromZero := restarted }
    if opens then
      let d := { d with
        sink := d.sink.begin restarted, pos := if restarted then 0 else d.pos, began := true }
      { d with phase := .reading (if isPartial then 0 else d.pos) body }
    else d.fail (.io "begin")

/-- A chunk behind the bytes that are dropped. -/
def put (d : Download) (data : List UInt8) : Download :=
  { d with
    sink := d.sink.write data, transferred := d.transferred + data.length
    pos := d.pos + data.length, attemptBytes := d.attemptBytes + data.length }

/-- The next `n` bytes of a body. -/
def chunk (d : Download) (skip : Nat) (body : List UInt8) (n : Nat) : Download :=
  let data := body.take n
  let drop := min skip data.length
  let d := { d with phase := .reading (skip - drop) (body.drop n) }
  if drop = data.length then d else d.put (data.drop drop)

/-- The same, and the file fails behind `taken` bytes. -/
def chunkTorn (d : Download) (skip : Nat) (body : List UInt8) (n taken : Nat) : Download :=
  let data := (body.take n).drop (min skip (body.take n).length)
  { d with sink := (d.sink.write data).flush taken }.fail (.io "write")

/-- The end of a body. -/
def eof (d : Download) (flushed : Bool) (n : Nat) : Download :=
  if d.totalLen.any fun t => decide (d.pos < t) then d.stallRetry .shortRead maxStallAttempts
  else if flushed then
    { d with
      sink := d.sink.flush d.sink.buffer.length
      phase := .ended (.ok
        { transferred := d.transferred, totalLen := d.totalLen,
          restartedFromZero := d.restartedFromZero }) }
  else { d with sink := d.sink.flush n }.fail (.io "finish")

variable (resource : List UInt8)

/-- One step of `download_with`, with the network and the file. -/
def step (d : Download) (e : Event) : Option Download :=
  match e, d.phase with
  | .begin, .ready => some d.begin
  | .cancel, .ready => some (d.fail .cancelled)
  | .connectFailed e, .sent =>
    let e := HttpError.fromReqwest e
    some (if e.isRetryable then d.stallRetry e maxConnAttempts else d.fail e)
  | .timedOut, .sent => some (d.stallRetry .timeout maxStallAttempts)
  | .refused status, .sent =>
    if 200 ≤ status ∧ status < 300 then none else some (d.fail (.http status))
  | .ranged first last total opens, .sent =>
    if first ≤ last ∧ last < resource.length then
      some (d.answer true
        (totalFromContentRange
          (contentRange first last (if total then some resource.length else none)))
        ((resource.drop first).take (last + 1 - first)) opens)
    else none
  | .full total opens, .sent =>
    some (d.answer false (if total then some resource.length else none) resource opens)
  | .chunk n, .reading skip body => some (d.chunk skip body n)
  | .chunkTorn n taken, .reading skip body => some (d.chunkTorn skip body n taken)
  | .bodyFailed e, .reading _ _ =>
    let e := HttpError.fromReqwest e
    some (if e.isRetryable then d.stallRetry e maxStallAttempts else d.fail e)
  | .stalled, .reading _ _ => some (d.stallRetry .shortRead maxStallAttempts)
  | .eof flushed n, .reading _ _ => some (d.eof flushed n)
  | .cancel, .reading _ _ => some (d.fail .cancelled)
  | .flushed n, _ => some { d with sink := d.sink.flush n }
  | _, _ => none

end Download

end Http

end XferRust
