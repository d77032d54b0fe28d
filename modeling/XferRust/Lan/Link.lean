import XferRust.Lan.Frames

/-! # A LAN transfer over an attacked connection

The sender and the receiver have a session key.  What lies between them is the adversary's: it has
every frame that was sent and can put any bytes before either side.  So it can drop frames, move,
repeat and reflect them, and make up lengths; it cannot seal.

A side can also fail at any time, by its disk, by a cancellation or because it has waited too
long.
-/
namespace XferRust.Lan

/-- The receipts as JSON: how they are written, and the field `ok` of what is read as one. -/
structure Receipts where
  success : List UInt8
  failure : String → List UInt8
  read : List UInt8 → Option Bool
  read_success : read success = some true
  read_failure : ∀ error, read (failure error) = some false

/-- What the sender reads of its file, block by block, and the size that its offer has declared; a
negative one is unknown. -/
structure Sent where
  chunks : List (List UInt8)
  size : Int
  nonempty : ∀ c ∈ chunks, c ≠ []
  /-- A block fits into the buffer. -/
  short : ∀ c ∈ chunks, c.length ≤ maxPlaintext
  /-- The length of a file is of type `i64`. -/
  bounded : chunks.flatten.length < 9223372036854775808

/-- The file of the sender. -/
def Sent.file (sent : Sent) : List UInt8 := sent.chunks.flatten

/-- `send_one` after the handshake. -/
inductive Sender where
  /-- These blocks are still to be sent. -/
  | sending (rest : List (List UInt8))
  /-- The end frame is sent, and the receipt is awaited. -/
  | awaiting
  | done
  | failed
  deriving DecidableEq

/-- `receive_one` after the handshake. -/
inductive Receiver where
  | receiving (total : Int) (file : List UInt8)
  /-- `receive_frames` has returned. -/
  | received (file : List UInt8)
  /-- The file is stored and the task is done; the receipt may be sent. -/
  | done (file : List UInt8)
  /-- The task has failed; a failure may be reported. -/
  | failed
  deriving DecidableEq

/-- The two sides, what was sealed, and what the adversary has put before each side. -/
structure Link where
  log : SealLog
  sender : Sender
  toSender : List UInt8
  receiver : Receiver
  toReceiver : List UInt8

def Link.start (sent : Sent) : Link :=
  { log := [], sender := .sending sent.chunks, toSender := [], receiver := .receiving 0 []
    toReceiver := [] }

/-- What can happen next. -/
inductive Event where
  /-- The sender seals and sends its next block. -/
  | sendChunk (payload : List UInt8)
  | sendEof
  /-- The sender reads a frame and takes it for the receipt. -/
  | readReceipt
  | senderFails
  /-- The adversary puts bytes before the receiver. -/
  | toReceiver (bytes : List UInt8)
  /-- The adversary puts bytes before the sender. -/
  | toSender (bytes : List UInt8)
  /-- The receiver reads a frame. -/
  | receive
  | receiverFails
  /-- The receiver renames its file and completes the task. -/
  | store
  /-- The receiver sends its receipt. -/
  | sendSuccess (payload : List UInt8)
  | sendFailure (error : String) (payload : List UInt8)

/-- A plaintext in `receive_frames`. -/
def takeChunk (size total : Int) (file plain : List UInt8) : Receiver :=
  if plain = [] then .receiving total file
  else
    let total := total + plain.length
    if 0 ≤ size ∧ size < total then .failed else .receiving total (file ++ plain)

/-- The end frame in `receive_frames`. -/
def endOfFrames (size total : Int) (file : List UInt8) : Receiver :=
  if 0 ≤ size ∧ total ≠ size then .failed else .received file

/-- A frame in `receive_frames`. -/
def receiveFrame (size : Int) (log : SealLog) (total : Int) (file : List UInt8) :
    FrameRead → Option (Receiver × List UInt8)
  | .more => none
  | .eof rest => some (endOfFrames size total file, rest)
  | .tooLong => some (.failed, [])
  | .payload payload rest =>
    match log.open payload with
    | none => some (.failed, rest)
    | some plain => some (takeChunk size total file plain, rest)

/-- The frame that `send_one` takes for its receipt. -/
def readReceipt (receipts : Receipts) (log : SealLog) : FrameRead → Option (Sender × List UInt8)
  | .more => none
  | .eof rest => some (.failed, rest)
  | .tooLong => some (.failed, [])
  | .payload payload rest =>
    match (log.open payload).bind receipts.read with
    | some true => some (.done, rest)
    | _ => some (.failed, rest)

/-- One event. -/
def Link.step (receipts : Receipts) (sent : Sent) (l : Link) : Event → Option Link
  | .sendChunk payload =>
    match l.sender with
    | .sending (c :: rest) =>
      (l.log.seal payload c).map fun log => { l with log, sender := .sending rest }
    | _ => none
  | .sendEof =>
    match l.sender with
    | .sending [] => some { l with sender := .awaiting }
    | _ => none
  | .readReceipt =>
    match l.sender with
    | .awaiting =>
      (readReceipt receipts l.log (readFrame l.toSender)).map fun r =>
        { l with sender := r.1, toSender := r.2 }
    | _ => none
  | .senderFails =>
    match l.sender with
    | .done => none
    | _ => some { l with sender := .failed }
  | .toReceiver bytes => some { l with toReceiver := l.toReceiver ++ bytes }
  | .toSender bytes => some { l with toSender := l.toSender ++ bytes }
  | .receive =>
    match l.receiver with
    | .receiving total file =>
      (receiveFrame sent.size l.log total file (readFrame l.toReceiver)).map fun r =>
        { l with receiver := r.1, toReceiver := r.2 }
    | _ => none
  | .receiverFails =>
    match l.receiver with
    | .done _ => none
    | _ => some { l with receiver := .failed }
  | .store =>
    match l.receiver with
    | .received file => some { l with receiver := .done file }
    | _ => none
  | .sendSuccess payload =>
    match l.receiver with
    | .done _ => (l.log.seal payload receipts.success).map fun log => { l with log }
    | _ => none
  | .sendFailure error payload =>
    match l.receiver with
    | .failed => (l.log.seal payload (receipts.failure error)).map fun log => { l with log }
    | _ => none

/-- Events one after the other. -/
def Link.run (receipts : Receipts) (sent : Sent) (l : Link) : List Event → Option Link
  | [] => some l
  | e :: es => (l.step receipts sent e).bind fun l => l.run receipts sent es

end XferRust.Lan
