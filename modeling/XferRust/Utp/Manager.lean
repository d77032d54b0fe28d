import XferRust.Lib.StepRun
import XferRust.Utp.Calls

/-! # A connection and its manager

The manager of the socket (`UtpManager`) owns every connection; the application has a `UtpStream`,
which is two channels.  What the application writes or closes waits in the one until the next tick;
what a connection has received is put into the other while there is room, and an error behind it
when the connection is gone.

The connections of a manager do not touch each other, so this is one of them, from its creation
until the manager drops it.  A round of the manager for it is cut into the steps that read or write
a channel, since the application runs beside the manager.  The history (what was written, accepted,
received and read) is kept for the statements only.
-/
namespace XferRust.Utp

/-- The capacity of the channels. -/
def channelCapacity : Nat := 256
/-- `UTP_READ_CHUNK`. -/
def utpReadChunk : Nat := 65536

/-- `UtpCmd`. -/
inductive UtpCmd
  | write (data : List UInt8)
  | close
  deriving DecidableEq

/-- `ConnContext`: the connection, and what is in the channels of its stream. -/
structure ConnContext where
  conn : UtpConnection
  /-- The commands in `cmd_rx`. -/
  cmds : List UtpCmd
  /-- The chunks in `data_tx`; none for an error. -/
  chunks : List (Option (List UInt8))
  writeBacklog : List UInt8

namespace ConnContext

/-- `process_connection_tick`. -/
def processConnectionTick (c : ConnContext) (env : Env) : ConnContext :=
  { c with conn := (c.conn.processTick env).drainOutbox.1 }

/-- The loop of `process_stream_commands` over the backlog; every round but the last takes a byte
or more. -/
def drainBacklog : Nat → UtpConnection → List UInt8 → UtpConnection × List UInt8
  | 0, conn, backlog => (conn, backlog)
  | fuel + 1, conn, backlog =>
    if backlog.isEmpty then (conn, backlog)
    else
      let r := conn.write backlog
      if r.2 = 0 then (r.1, backlog) else drainBacklog fuel r.1 (backlog.drop r.2)

/-- `process_stream_commands`, one command. -/
def command (c : ConnContext) (cmd : UtpCmd) (env : Env) : ConnContext :=
  let c :=
    match cmd with
    | .write data =>
      let r := c.conn.write data
      { c with
        conn := r.1
        writeBacklog :=
          if r.2 < data.length then c.writeBacklog ++ data.drop r.2 else c.writeBacklog }
    | .close => { c with conn := c.conn.close }
  c.processConnectionTick env

/-- The loop of `process_readable_data`; every round but the last hands over a byte or more. -/
def handOver : Nat → UtpConnection → List (Option (List UInt8)) →
    UtpConnection × List (Option (List UInt8))
  | 0, conn, chunks => (conn, chunks)
  | fuel + 1, conn, chunks =>
    if conn.wantRead ∧ chunks.length < channelCapacity then
      let r := conn.read utpReadChunk
      if r.2 = [] then
        (r.1, if r.1.eofReceived ∨ r.1.isClosed then chunks ++ [none] else chunks)
      else handOver fuel r.1 (chunks ++ [some r.2])
    else (conn, chunks)

/-- `process_readable_data`. -/
def processReadableData (c : ConnContext) : ConnContext :=
  let r := handOver (c.conn.recvOut.length + 1) c.conn c.chunks
  { c with conn := r.1, chunks := r.2 }

/-- The last chunk of `finalize_closed_connection`. -/
def finalize (c : ConnContext) : ConnContext :=
  if c.chunks.length < channelCapacity then { c with chunks := c.chunks ++ [none] } else c

end ConnContext

/-- Where the manager is with a connection. -/
inductive Stage
  /-- Between two rounds. -/
  | idle
  /-- `process_stream_commands` comes next. -/
  | ticked
  /-- The commands that were collected. -/
  | commands (batch : List UtpCmd)
  /-- `process_readable_data` comes next. -/
  | readable
  /-- The manager has dropped the connection. -/
  | removed
  deriving DecidableEq

/-- A connection with its manager, its application and its history. -/
structure Managed where
  ctx : ConnContext
  stage : Stage := .idle
  /-- The bytes of the `Write` commands that the manager has taken up. -/
  written : List UInt8 := []
  /-- The bytes that `write` has accepted. -/
  handed : List UInt8 := []
  /-- The bytes that were written before the first `Close` that the manager has taken up. -/
  closedAt : Option Nat := none
  /-- The bytes that were appended to the receive stream. -/
  appended : List UInt8
  /-- The bytes that the application has read. -/
  got : List UInt8 := []
  /-- The application has seen an error or the end. -/
  ended : Bool := false

inductive ManagedEvent
  /-- The application sends a command. -/
  | send (cmd : UtpCmd)
  /-- The application reads. -/
  | recv
  /-- A round begins with `process_connection_tick`. -/
  | tick (env : Env)
  /-- The backlog is drained and the commands are collected. -/
  | collect
  | command (env : Env)
  /-- `process_readable_data`, and what follows for a closed connection. -/
  | readable
  /-- A datagram of the peer. -/
  | datagram (env : Env) (data : List UInt8)
  /-- A SYN of the peer that comes once more. -/
  | resentSyn (env : Env) (data : List UInt8)

namespace Managed

def start (conn : UtpConnection) : Managed where
  ctx := { conn, cmds := [], chunks := [], writeBacklog := [] }
  appended := conn.recvOut

/-- The type of a packet. -/
def packetType (data : List UInt8) : Option UInt8 := (parsePacket data).map fun p => p.1.type_

/-- `handle_packet`, with the history of the receive stream. -/
def handle (m : Managed) (env : Env) (data : List UInt8) : Managed :=
  let conn := m.ctx.conn.handlePacket data env
  { m with
    ctx := { m.ctx with conn }
    appended := m.appended ++ conn.recvOut.drop m.ctx.conn.recvOut.length }

/-- The start of `process_stream_commands`. -/
def collect (m : Managed) : Managed :=
  let r := ConnContext.drainBacklog m.ctx.writeBacklog.length m.ctx.conn m.ctx.writeBacklog
  { m with
    ctx := { m.ctx with conn := r.1, cmds := [], writeBacklog := r.2 }
    stage := .commands m.ctx.cmds
    handed := m.handed ++ m.ctx.writeBacklog.take (m.ctx.writeBacklog.length - r.2.length) }

/-- One command, with the history of the send stream. -/
def command (m : Managed) (cmd : UtpCmd) (rest : List UtpCmd) (env : Env) : Managed :=
  let m :=
    match cmd with
    | .write data =>
      { m with
        written := m.written ++ data, handed := m.handed ++ data.take (m.ctx.conn.write data).2 }
    | .close => { m with closedAt := m.closedAt.or (some m.written.length) }
  { m with
    ctx := m.ctx.command cmd env
    stage := match rest with
      | [] => .readable
      | _ => .commands rest }

/-- The end of a round. -/
def readable (m : Managed) : Managed :=
  let ctx := m.ctx.processReadableData
  if ctx.conn.isClosed ∨ ctx.conn.hasError then { m with ctx := ctx.finalize, stage := .removed }
  else { m with ctx, stage := .idle }

/-- The application takes the next chunk. -/
def recv (m : Managed) : Option Managed :=
  if m.ended then none
  else match m.ctx.chunks with
    | some data :: rest => some { m with ctx := { m.ctx with chunks := rest }, got := m.got ++ data }
    | none :: rest => some { m with ctx := { m.ctx with chunks := rest }, ended := true }
    | [] => if m.stage = .removed then some { m with ended := true } else none

def step (m : Managed) (e : ManagedEvent) : Option Managed :=
  match e, m.stage with
  | .send _, .removed => none
  | .send cmd, _ =>
    if m.ctx.cmds.length < channelCapacity then
      some { m with ctx := { m.ctx with cmds := m.ctx.cmds ++ [cmd] } }
    else none
  | .recv, _ => m.recv
  | .tick env, .idle => some { m with ctx := m.ctx.processConnectionTick env, stage := .ticked }
  | .collect, .ticked =>
    let m := m.collect
    some (if m.stage = .commands [] then { m with stage := .readable } else m)
  | .command env, .commands (cmd :: rest) => some (m.command cmd rest env)
  | .readable, .readable => some m.readable
  | .datagram env data, .idle =>
    if (packetType data).any fun t => decide (t ≠ stSyn) then
      some { m.handle env data with stage := .readable }
    else none
  | .resentSyn env data, .idle =>
    if packetType data = some stSyn then
      let m := m.handle env data
      some { m with ctx := m.ctx.processConnectionTick env }
    else none
  | _, _ => none

end Managed

end XferRust.Utp
