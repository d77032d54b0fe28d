import Mathlib.Logic.Function.Basic
import XferRust.Lib.Custody
import XferRust.Lib.StepRun

/-! # Reserved pieces

A piece that a peer session is to download is reserved in two places: in the set `assigned` of
the engine, and in the queue of the session.  They have a lock each, and a task that changes
both takes one lock after the other.  The state here says for every session where its task is
between two locks, and a step is what one task does under one lock; so the runs are all the
interleavings of the sessions, of the calls of `unregister_peer`, and of the messages.

Whether a session asks for one more piece, and which of the candidates comes first, depends on
its pipeline and on how rare the pieces are; here both are left to the run.
-/
namespace XferRust.Swarm

/-- `MAX_QUEUED_PIECES`. -/
def maxQueuedPieces : Nat := 4

/-- What the task of a session is in the middle of. -/
inductive Task where
  /-- It waits for the next message or timer, or does what takes none of the locks. -/
  | idle
  /-- `assign_piece`, with its copy of the piece map: the pieces that are missing. -/
  | snapped (missing : List Nat)
  /-- `assign_piece`, with its candidates. -/
  | choosing (candidates : List Nat)
  /-- `SuggestPiece`, for a piece that the store does not have. -/
  | suggested (p : Nat)
  /-- `SuggestPiece`, with room in the queue. -/
  | roomy (p : Nat)
  /-- A piece was put into `assigned` and goes into the queue next. -/
  | reserved (p : Nat)
  /-- A block of a queued piece came: the rate limiter, the block table, and all that comes
  before `accept_piece` has answered. -/
  | receiving (p : Nat)
  /-- All blocks came and `accept_piece` has answered; `release_piece` is next. -/
  | received (p : Nat)
  /-- `release_piece`, between the queue and the set. -/
  | unqueued (p : Nat)
  /-- `release_all_pieces` at a choke, between the queue and the set. -/
  | choked (taken : List Nat)
  /-- The loop has returned; `unregister_peer` is next. -/
  | ending
  | over
  deriving DecidableEq

/-- What a session keeps that others can see, and where its task is. -/
structure Session where
  /-- The `kill` token is not cancelled. -/
  live : Bool
  queued : List Nat
  /-- The pieces that the peer has. -/
  have_ : List Nat
  task : Task

/-- A session before its first message. -/
def Session.new : Session := { live := true, queued := [], have_ := [], task := .idle }

/-- The part of the engine that the sessions share. -/
structure Engine where
  /-- The pieces whose bit is set. -/
  done : List Nat
  /-- `wanted`: the pieces of the selected files, or all. -/
  wanted : Option (List Nat)
  assigned : List Nat
  session : Nat → Session
  /-- What each call of `unregister_peer` took out of a queue and still has to take out of
  `assigned`. -/
  evictor : Nat → List Nat

inductive Event where
  /-- `Bitfield`, `Have` and `HaveAll`: the peer has these pieces as well. -/
  | learn (i : Nat) (pieces : List Nat)
  | haveNone (i : Nat)
  /-- `SuggestPiece`: the check against the store. -/
  | suggestPiece (i p : Nat)
  /-- The check of the queue. -/
  | suggestRoom (i : Nat)
  /-- The check of `assigned`, and the entry. -/
  | suggestAssign (i : Nat)
  /-- `assign_piece`: the copy of the piece map. -/
  | snapshot (i : Nat)
  /-- The candidates. -/
  | list (i : Nat)
  /-- The first candidate that is not assigned is entered. -/
  | assign (i p : Nat)
  /-- All candidates are assigned. -/
  | giveUp (i : Nat)
  /-- The piece goes into the queue of the session. -/
  | push (i : Nat)
  /-- `Piece`: the check of the queue. -/
  | piece (i p : Nat)
  /-- The piece is not complete. -/
  | incomplete (i : Nat)
  /-- The piece is complete; `accept_piece` stores it when the hash and the disk allow. -/
  | accept (i : Nat) (stored : Bool)
  /-- `release_piece`: the queue. -/
  | unqueue (i : Nat)
  /-- `release_piece`: the set. -/
  | unassign (i : Nat)
  /-- `Choke`: `release_all_pieces` takes the queue. -/
  | choke (i : Nat)
  /-- `Choke`: the taken pieces leave the set. -/
  | chokeRelease (i : Nat)
  /-- `unregister_peer`: the kill token. -/
  | kill (i : Nat)
  /-- The `j`-th call of `unregister_peer` takes the queue. -/
  | take (i j : Nat)
  /-- The `j`-th call of `unregister_peer` takes the pieces out of the set. -/
  | release (j : Nat)
  /-- The loop of the session returns. -/
  | finish (i : Nat)
  /-- The `j`-th call of `unregister_peer`, by the session itself, takes the queue. -/
  | takeOwn (i j : Nat)
  /-- `set_selected_files`. -/
  | select (wanted : Option (List Nat))

namespace Engine

/-- No session has reserved anything yet. -/
def start (done : List Nat) (wanted : Option (List Nat)) : Engine where
  done := done
  wanted := wanted
  assigned := []
  session := fun _ => .new
  evictor := fun _ => []

/-- `piece_wanted`, of a torrent that is not being verified. -/
def pieceWanted (s : Engine) (p : Nat) : Bool :=
  match s.wanted with
  | none => true
  | some m => m.contains p

variable (count : Nat)

/-- `all_wanted_done`, which is `is_done`; an empty selection is never done. -/
def isDone (s : Engine) : Bool :=
  match s.wanted with
  | none => (List.range count).all s.done.contains
  | some m => m ≠ [] ∧ m.all s.done.contains

/-- The engine with one session changed. -/
def modify (s : Engine) (i : Nat) (f : Session → Session) : Engine :=
  { s with session := Function.update s.session i (f (s.session i)) }

/-- The task of a session goes on at another place. -/
def goto (s : Engine) (i : Nat) (t : Task) : Engine := s.modify i fun x => { x with task := t }

/-- The queue of a session is taken from it, by the call `j` of `unregister_peer`. -/
def takeQueue (s : Engine) (i j : Nat) (t : Task) : Engine :=
  { s.modify i fun x => { x with live := false, queued := [], task := t } with
    evictor := Function.update s.evictor j (s.session i).queued }

/-- What one task does under one lock. -/
def step (s : Engine) : Event → Option Engine
  | .learn i pieces =>
    if (s.session i).task = .idle then
      some (s.modify i fun x => { x with have_ := pieces.filter (· < count) ++ x.have_ })
    else none
  | .haveNone i =>
    if (s.session i).task = .idle then some (s.modify i fun x => { x with have_ := [] }) else none
  | .suggestPiece i p =>
    if (s.session i).task = .idle then
      -- a piece beyond the last has no bit, and so is missing
      if s.isDone count = false ∧ p ∉ s.done then some (s.goto i (.suggested p)) else some s
    else none
  | .suggestRoom i =>
    match (s.session i).task with
    | .suggested p =>
      if (s.session i).queued.length < maxQueuedPieces ∧ p ∉ (s.session i).queued then
        some (s.goto i (.roomy p))
      else some (s.goto i .idle)
    | _ => none
  | .suggestAssign i =>
    match (s.session i).task with
    | .roomy p =>
      if p ∈ s.assigned then some (s.goto i .idle)
      else some { s.goto i (.reserved p) with assigned := p :: s.assigned }
    | _ => none
  | .snapshot i =>
    if (s.session i).task = .idle then
      some (s.goto i (.snapped ((List.range count).filter (· ∉ s.done))))
    else none
  | .list i =>
    match (s.session i).task with
    | .snapped missing =>
      some (s.goto i (.choosing
        (missing.filter fun p => p ∈ (s.session i).have_ ∧ s.pieceWanted p)))
    | _ => none
  | .assign i p =>
    match (s.session i).task with
    | .choosing candidates =>
      if p ∈ candidates ∧ p ∉ s.assigned then
        some { s.goto i (.reserved p) with assigned := p :: s.assigned }
      else none
    | _ => none
  | .giveUp i =>
    match (s.session i).task with
    | .choosing candidates =>
      if ∀ p ∈ candidates, p ∈ s.assigned then some (s.goto i .idle) else none
    | _ => none
  | .push i =>
    match (s.session i).task with
    | .reserved p => some (s.modify i fun x => { x with queued := x.queued ++ [p], task := .idle })
    | _ => none
  | .piece i p =>
    if (s.session i).task = .idle then
      if p ∈ (s.session i).queued then some (s.goto i (.receiving p)) else some s
    else none
  | .incomplete i =>
    match (s.session i).task with
    | .receiving _ => some (s.goto i .idle)
    | _ => none
  | .accept i stored =>
    match (s.session i).task with
    | .receiving p =>
      if stored ∧ p ∉ s.done then some { s.goto i (.received p) with done := p :: s.done }
      else some (s.goto i (.received p))
    | _ => none
  | .unqueue i =>
    match (s.session i).task with
    | .received p =>
      some (s.modify i fun x =>
        { x with queued := x.queued.filter (· ≠ p), task := .unqueued p })
    | _ => none
  | .unassign i =>
    match (s.session i).task with
    | .unqueued p => some { s.goto i .idle with assigned := s.assigned.filter (· ≠ p) }
    | _ => none
  | .choke i =>
    if (s.session i).task = .idle then
      some (s.modify i fun x => { x with queued := [], task := .choked x.queued })
    else none
  | .chokeRelease i =>
    match (s.session i).task with
    | .choked taken => some { s.goto i .idle with assigned := s.assigned.filter (· ∉ taken) }
    | _ => none
  | .kill i => some (s.modify i fun x => { x with live := false })
  | .take i j =>
    if (s.session i).live = false ∧ s.evictor j = [] then
      some (s.takeQueue i j (s.session i).task)
    else none
  | .release j =>
    some { s with
      assigned := s.assigned.filter (· ∉ s.evictor j)
      evictor := Function.update s.evictor j [] }
  | .finish i => if (s.session i).task = .idle then some (s.goto i .ending) else none
  | .takeOwn i j =>
    if (s.session i).task = .ending ∧ s.evictor j = [] then some (s.takeQueue i j .over) else none
  | .select wanted => some { s with wanted }

end Engine

end XferRust.Swarm
