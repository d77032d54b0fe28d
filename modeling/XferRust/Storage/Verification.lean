import Mathlib.Algebra.Group.Nat.Defs
import XferRust.Lib.Shares
import XferRust.Storage.PieceTiling
import XferRust.Storage.Resume

/-! # Verifying existing files

Before a torrent starts, the pieces that its files already have are read and hashed by several
workers, each of which takes a run of piece numbers and keeps a few files open.  Nothing stands for
a panic: arithmetic without room, or a buffer larger than there can be.
-/
namespace XferRust.Storage
open Tiling (total)
open PieceLayout (Placed)

/-! ## Files on demand -/

/-- `VerifyFileCache`: the files that are open, with their bytes, in the order of their opening.
`disk` tells which files exist. -/
structure VerifyFileCache (F : Type) where
  paths : List F
  handles : List (Nat × List UInt8)
  order : List Nat
  limit : Nat

namespace VerifyFileCache
variable {F : Type}

def new (paths : List F) (limit : Nat) : VerifyFileCache F where
  paths := paths
  handles := []
  order := []
  limit := max limit 1

/-- Makes room for another file. -/
def evict (c : VerifyFileCache F) : VerifyFileCache F :=
  if c.handles.length ≥ c.limit then
    match c.order with
    | [] => c
    | old :: order => { c with handles := c.handles.filter fun h => h.1 ≠ old, order }
  else c

/-- `file`: a file that has at least so many bytes. -/
def file (disk : F → Option (List UInt8)) (c : VerifyFileCache F) (fi need : Nat) :
    VerifyFileCache F × Option (List UInt8) :=
  match c.handles.lookup fi with
  | some bytes => (c, if bytes.length < need then none else some bytes)
  | none =>
    match c.paths[fi]?.bind disk with
    | none => (c, none)
    | some bytes =>
      if bytes.length < need then (c, none)
      else
        let c := c.evict
        ({ c with handles := (fi, bytes) :: c.handles, order := c.order ++ [fi] }, some bytes)

end VerifyFileCache

/-- `read_exact_at`. -/
def readExactAt (bytes : List UInt8) (offset len : Nat) : Option (List UInt8) :=
  if offset + len ≤ bytes.length then some ((bytes.drop offset).take len) else none

section
variable {F : Type} (disk : F → Option (List UInt8))

/-- The loop of `read_piece_into`, behind what is in the buffer. -/
def readSegments : VerifyFileCache F → List UInt8 → List Segment →
    VerifyFileCache F × Option (List UInt8)
  | c, buf, [] => (c, some buf)
  | c, buf, seg :: segs =>
    match c.file disk seg.file (seg.offset.toNat + seg.len.toNat) with
    | (c, none) => (c, none)
    | (c, some bytes) =>
      match readExactAt bytes seg.offset.toNat seg.len.toNat with
      | none => (c, none)
      | some data => readSegments c (buf ++ data) segs

/-- `reserve`: a buffer has at most `isize::MAX` bytes. -/
def reserve (n : UInt64) : Option Unit := if n.toNat < 2 ^ 63 then some () else none

/-- `read_piece_into`. -/
def readPieceInto (l : PieceLayout) (c : VerifyFileCache F) (idx : UInt32) :
    Option (VerifyFileCache F × Option (List UInt8)) := do
  let need ← l.pieceLen idx
  reserve need
  let segs ← l.pieceSegments idx
  let (c, buf) := readSegments disk c [] segs
  some (c, buf.filter fun buf => buf.length == need.toNat)

/-- `m.is_set(idx)`, for a mask that may be absent. -/
def isWanted (wanted : Option PieceMap) (idx : UInt32) : Bool :=
  match wanted with
  | none => true
  | some m => m.isSet idx

variable {Hash : Type} [DecidableEq Hash] (sha1 : List UInt8 → Hash) (hashes : List Hash)

/-- `verify_piece`, of a piece that could be read. -/
def verifyPiece (idx : UInt32) (buf : Option (List UInt8)) : Bool :=
  match buf with
  | none => false
  | some buf => hashes[idx.toNat]? == some (sha1 buf)

/-- The loop of a worker over its pieces. -/
def verifyPieces (l : PieceLayout) (wanted : Option PieceMap) :
    VerifyFileCache F → List UInt32 → Option (List UInt32)
  | _, [] => some []
  | c, idx :: rest =>
    if isWanted wanted idx then do
      let (c, buf) ← readPieceInto disk l c idx
      let verified ← verifyPieces l wanted c rest
      some (if verifyPiece sha1 hashes idx buf then idx :: verified else verified)
    else verifyPieces l wanted c rest

/-- A number of type `u32`. -/
def inU32 (n : Nat) : Option Nat := if n < 2 ^ 32 then some n else none

/-- A worker: the pieces between its ends. -/
def verifyShare (l : PieceLayout) (wanted : Option PieceMap) (paths : List F) (count chunk : Nat)
    (worker : Nat) : Option (List UInt32) := do
  let start ← inU32 (worker * chunk)
  let stop ← inU32 (start + chunk)
  let pieces := (List.range' start (min stop count - start)).map UInt32.ofNat
  verifyPieces disk sha1 hashes l wanted (.new paths 8) pieces

/-- `verify_workers`, with `available_parallelism`. -/
def verifyWorkers (count totalBytes : Nat) (parallelism : Option Nat) : Nat :=
  if count < 4 ∨ totalBytes < 2 * 1024 * 1024 then 1
  else min (max 2 (min (parallelism.getD 1) 8)) count

/-- The bytes of the pieces that are wanted. -/
def wantedBytes (l : PieceLayout) (wanted : Option PieceMap) :
    UInt64 → List UInt32 → Option UInt64
  | acc, [] => some acc
  | acc, idx :: rest =>
    if isWanted wanted idx then do
      let len ← l.pieceLen idx
      let acc ← Checked.add acc len
      wantedBytes l wanted acc rest
    else wantedBytes l wanted acc rest

/-- The workers in the order in which they are done. -/
def verifyShares (l : PieceLayout) (wanted : Option PieceMap) (paths : List F) (count chunk : Nat) :
    List Nat → Option (List UInt32)
  | [] => some []
  | worker :: rest => do
    let own ← verifyShare disk sha1 hashes l wanted paths count chunk worker
    let others ← verifyShares l wanted paths count chunk rest
    some (own ++ others)

structure ExistingVerification where
  bitfield : List UInt8
  bytes : Nat
  pieces : Nat

/-- What is made of the numbers that the workers have collected. -/
def collect (l : PieceLayout) (count : Nat) (verified : List UInt32) : ExistingVerification where
  bitfield := verified.foldl
    (fun bits idx => bits.modify (idx / 8).toNat fun byte => byte ||| bitMask idx)
    (List.replicate ((count + 7) / 8) 0)
  bytes := total l.pieceSize verified
  pieces := verified.length

/-- The order in which workers are done, for each number of them. -/
structure Schedule where
  order : Nat → List Nat
  perm : ∀ n, (order n).Perm (List.range n)

/-- `verify_existing_files_blocking`. -/
def verifyExistingFiles (l : PieceLayout) (wanted : Option PieceMap) (paths : List F)
    (parallelism : Option Nat) (schedule : Schedule) : Option ExistingVerification := do
  let count ← l.pieceCount
  if count = 0 ∨ hashes.length ≠ count.toNat then some ⟨[], 0, 0⟩
  else
    let totalBytes ← wantedBytes l wanted 0 (indices count)
    let workers := verifyWorkers count.toNat totalBytes.toNat parallelism
    let chunk := Checked.ceilDiv count.toNat workers
    let verified ← verifyShares disk sha1 hashes l wanted paths count.toNat chunk
      (schedule.order workers)
    some (collect l count.toNat verified)

/-! ## One piece after the other -/

/-- A file that exists, by its number. -/
def fileAt (paths : List F) (fi : Nat) : Option (List UInt8) := paths[fi]?.bind disk

/-- The files have all bytes of these segments. -/
def covers (paths : List F) (segs : List Segment) : Bool :=
  segs.all fun seg => match fileAt disk paths seg.file with
    | none => false
    | some bytes => seg.offset.toNat + seg.len.toNat ≤ bytes.length

/-- The bytes of these segments. -/
def contentOf (paths : List F) (segs : List Segment) : List UInt8 :=
  segs.flatMap fun seg =>
    (((fileAt disk paths seg.file).getD []).drop seg.offset.toNat).take seg.len.toNat

/-- **A piece is there**: it is wanted, the existing files cover it, and its hash matches. -/
def isThere (l : PieceLayout) (wanted : Option PieceMap) (paths : List F) (idx : UInt32) : Bool :=
  isWanted wanted idx &&
    match l.pieceSegments idx with
    | none => false
    | some segs => covers disk paths segs &&
      hashes[idx.toNat]? == some (sha1 (contentOf disk paths segs))

end

/-- **The condition**: the numbers of every wanted piece have room in their types, and so has the
end of the last worker's share. -/
def VerifyFits (l : PieceLayout) (wanted : Option PieceMap) (count : UInt32)
    (parallelism : Option Nat) : Prop :=
  let totalBytes := total l.pieceSize ((indices count).filter (isWanted wanted))
  let workers := verifyWorkers count.toNat totalBytes parallelism
  (∀ idx, idx < count → isWanted wanted idx = true →
    idx.toNat * l.pieceLength.toNat + l.pieceLength.toNat < 18446744073709551616 ∧
      l.pieceSize idx < 2 ^ 63) ∧
    workers * Checked.ceilDiv count.toNat workers < 2 ^ 32

/-! ## Reading -/

section
variable {F : Type} {disk : F → Option (List UInt8)}

namespace VerifyFileCache

/-- What is open is on the disk. -/
def Current (disk : F → Option (List UInt8)) (c : VerifyFileCache F) : Prop :=
  ∀ h ∈ c.handles, fileAt disk c.paths h.1 = some h.2

theorem current_new (paths : List F) (limit : Nat) : (new paths limit).Current disk :=
  fun _ hh => absurd hh List.not_mem_nil

theorem Current.evict {c : VerifyFileCache F} (hc : c.Current disk) : c.evict.Current disk := by
  unfold VerifyFileCache.evict
  split
  · split
    · exact hc
    · exact fun h hh => hc h (List.mem_of_mem_filter hh)
  · exact hc

theorem evict_paths (c : VerifyFileCache F) : c.evict.paths = c.paths := by
  unfold VerifyFileCache.evict
  split
  · split
    · rfl
    · rfl
  · rfl

/-- **The cache does not show**: the answer is what the disk has. -/
theorem file_spec {c : VerifyFileCache F} (hc : c.Current disk) (fi need : Nat) :
    (c.file disk fi need).2 = (fileAt disk c.paths fi).filter (fun bytes => need ≤ bytes.length) ∧
      (c.file disk fi need).1.Current disk ∧ (c.file disk fi need).1.paths = c.paths := by
  unfold VerifyFileCache.file
  cases hopen : c.handles.lookup fi with
  | some bytes =>
    obtain ⟨before, after, hsplit, -⟩ := List.lookup_eq_some_iff.mp hopen
    have hdisk : fileAt disk c.paths fi = some bytes := hc (fi, bytes) (by
      rw [hsplit]
      exact List.mem_append_right _ List.mem_cons_self)
    refine ⟨?_, hc, rfl⟩
    rw [hdisk, Option.filter_some]
    dsimp only
    by_cases hlen : bytes.length < need
    · rw [if_pos hlen, if_neg (by rw [decide_eq_true_iff]; omega)]
    · rw [if_neg hlen, if_pos (decide_eq_true (by omega))]
  | none =>
    rw [show c.paths[fi]?.bind disk = fileAt disk c.paths fi from rfl]
    cases hdisk : fileAt disk c.paths fi with
    | none => exact ⟨rfl, hc, rfl⟩
    | some bytes =>
      dsimp only
      rw [Option.filter_some]
      by_cases hlen : bytes.length < need
      · rw [if_pos hlen, if_neg (by rw [decide_eq_true_iff]; omega)]
        exact ⟨rfl, hc, rfl⟩
      · rw [if_neg hlen, if_pos (decide_eq_true (by omega))]
        refine ⟨rfl, fun h hh => ?_, evict_paths c⟩
        show fileAt disk c.evict.paths h.1 = some h.2
        rcases List.mem_cons.mp hh with rfl | hh
        · rw [evict_paths]
          exact hdisk
        · exact hc.evict h hh

end VerifyFileCache

theorem length_take_drop {bytes : List UInt8} {offset len : Nat} (h : offset + len ≤ bytes.length) :
    ((bytes.drop offset).take len).length = len := by
  rw [List.length_take, List.length_drop]
  omega

/-- **A piece is read** when the files cover it, and then it has their bytes. -/
theorem readSegments_spec {c : VerifyFileCache F} (hc : c.Current disk) (buf : List UInt8)
    (segs : List Segment) :
    (readSegments disk c buf segs).2 =
        (if covers disk c.paths segs then some (buf ++ contentOf disk c.paths segs) else none) ∧
      (readSegments disk c buf segs).1.Current disk ∧
      (readSegments disk c buf segs).1.paths = c.paths := by
  induction segs generalizing c buf with
  | nil => exact ⟨congrArg some (List.append_nil buf).symm, hc, rfl⟩
  | cons seg segs ih =>
    obtain ⟨hfile, hcur, hpaths⟩ := c.file_spec hc seg.file (seg.offset.toNat + seg.len.toNat)
    cases hopen : c.file disk seg.file (seg.offset.toNat + seg.len.toNat) with
    | mk d found =>
    rw [hopen] at hfile hcur hpaths
    dsimp only at hfile hcur hpaths
    rw [readSegments, hopen]
    cases hdisk : fileAt disk c.paths seg.file with
    | none =>
      have hcovers : covers disk c.paths (seg :: segs) = false := by
        rw [covers, List.all_cons, hdisk]
        rfl
      rw [hdisk] at hfile
      obtain rfl := hfile
      rw [hcovers]
      exact ⟨rfl, hcur, hpaths⟩
    | some bytes =>
      have hcovers : covers disk c.paths (seg :: segs) =
          (decide (seg.offset.toNat + seg.len.toNat ≤ bytes.length) &&
            covers disk c.paths segs) := by
        rw [covers, List.all_cons, hdisk, ← covers]
      rw [hdisk, Option.filter_some] at hfile
      by_cases hlen : seg.offset.toNat + seg.len.toNat ≤ bytes.length
      · rw [if_pos (decide_eq_true hlen)] at hfile
        obtain rfl := hfile
        obtain ⟨hread, hcur', hpaths'⟩ := ih hcur
          (buf ++ (bytes.drop seg.offset.toNat).take seg.len.toNat)
        rw [hpaths] at hread hpaths'
        rw [hcovers, decide_eq_true hlen, Bool.true_and]
        dsimp only
        rw [readExactAt, if_pos hlen]
        refine ⟨hread.trans ?_, hcur', hpaths'⟩
        rw [contentOf, contentOf, List.flatMap_cons, hdisk, Option.getD_some, List.append_assoc]
      · rw [if_neg (by rw [decide_eq_true_iff]; exact hlen)] at hfile
        obtain rfl := hfile
        rw [hcovers, decide_eq_false hlen, Bool.false_and]
        exact ⟨rfl, hcur, hpaths⟩

/-- What covers the segments is as long as they are. -/
theorem length_contentOf {paths : List F} {segs : List Segment}
    (h : covers disk paths segs = true) :
    (contentOf disk paths segs).length = total (fun seg => seg.len.toNat) segs := by
  induction segs with
  | nil => rfl
  | cons seg segs ih =>
    rw [covers, List.all_cons, ← covers, Bool.and_eq_true] at h
    obtain ⟨hseg, hsegs⟩ := h
    rw [contentOf, List.flatMap_cons, ← contentOf, List.length_append, ih hsegs,
      Tiling.total_cons]
    congr 1
    cases hdisk : fileAt disk paths seg.file with
    | none =>
      rw [hdisk] at hseg
      cases hseg
    | some bytes =>
      rw [hdisk] at hseg
      exact length_take_drop (of_decide_eq_true hseg)

/-- The length of a piece is a number. -/
theorem exists_need {l : PieceLayout} {count : UInt32} (hcount : l.pieceCount = some count)
    {idx : UInt32} (hidx : idx < count) :
    ∃ need, l.pieceLen idx = some need ∧ l.size < 18446744073709551616 ∧
      idx.toNat * l.pieceLength.toNat < l.size := by
  have hlt := UInt32.lt_iff_toNat_lt.mp hidx
  rw [PieceLayout.toNat_pieceCount hcount] at hlt
  obtain ⟨hstart, -⟩ := PieceLayout.piece_end hlt
  obtain ⟨n, htotal, -⟩ := Option.bind_eq_some_iff.mp hcount
  have hsize := PieceLayout.totalLength_eq_some.mp htotal
  have hn := n.toNat_lt
  obtain ⟨need, hneed⟩ := @exists_pieceLenIn n l.pieceLength idx (by omega)
  exact ⟨need, by rw [PieceLayout.pieceLen, htotal, hneed], by omega, hstart⟩

/-- Reading a piece has room exactly if the piece has. -/
theorem readPieceInto_spec {l : PieceLayout} (hplaced : Placed 0 l.files) {count : UInt32}
    (hcount : l.pieceCount = some count) {c : VerifyFileCache F} (hc : c.Current disk)
    {idx : UInt32} (hidx : idx < count) :
    ((readPieceInto disk l c idx).isSome = true ↔
      idx.toNat * l.pieceLength.toNat + l.pieceLength.toNat < 18446744073709551616 ∧
        l.pieceSize idx < 2 ^ 63) ∧
    ∀ d buf, readPieceInto disk l c idx = some (d, buf) → d.Current disk ∧ d.paths = c.paths ∧
      ∃ segs, l.pieceSegments idx = some segs ∧
        buf = if covers disk c.paths segs then some (contentOf disk c.paths segs) else none := by
  obtain ⟨need, hneed, hsize, hstart⟩ := exists_need hcount hidx
  have hlen := PieceLayout.pieceLen_eq_some hneed
  unfold readPieceInto
  rw [hneed, Option.bind_eq_bind, Option.bind_some]
  constructor
  · constructor
    · intro hsome
      obtain ⟨r, hr⟩ := Option.isSome_iff_exists.mp hsome
      obtain ⟨_, hreserve, hr⟩ := Option.bind_eq_some_iff.mp hr
      obtain ⟨segs, hsegs, -⟩ := Option.bind_eq_some_iff.mp hr
      obtain ⟨-, -, -, -, -, hend⟩ := PieceLayout.pieceSegments_eq_some hsegs
      obtain ⟨hroom, -⟩ := Option.ite_none_right_eq_some.mp hreserve
      exact ⟨hend, hlen ▸ hroom⟩
    · rintro ⟨hend, hroom⟩
      obtain ⟨segs, hsegs⟩ :=
        PieceLayout.exists_pieceSegments hplaced hsize (Nat.le_of_lt hstart) hend
      rw [reserve, if_pos (hlen ▸ hroom), hsegs]
      rfl
  · intro d buf h
    obtain ⟨-, -, h⟩ := Option.bind_eq_some_iff.mp h
    obtain ⟨segs, hsegs, h⟩ := Option.bind_eq_some_iff.mp h
    obtain ⟨hread, hcur, hpaths⟩ := readSegments_spec hc [] segs
    cases h
    refine ⟨hcur, hpaths, segs, hsegs, ?_⟩
    rw [hread]
    split
    · rename_i hcovers
      -- what is read has the length of the piece
      have hall : (contentOf disk c.paths segs).length = need.toNat := by
        rw [length_contentOf hcovers, PieceLayout.total_pieceSegments hplaced hsegs, hlen]
      rw [List.nil_append, Option.filter_some, if_pos (by rw [hall, beq_self_eq_true])]
    · rfl

end

/-! ## Workers -/

section
variable {F : Type} (disk : F → Option (List UInt8)) {Hash : Type} [DecidableEq Hash]
  (sha1 : List UInt8 → Hash) (hashes : List Hash)

/-- The room that a wanted piece needs. -/
def PieceFits (l : PieceLayout) (wanted : Option PieceMap) (idx : UInt32) : Prop :=
  isWanted wanted idx = true →
    idx.toNat * l.pieceLength.toNat + l.pieceLength.toNat < 18446744073709551616 ∧
      l.pieceSize idx < 2 ^ 63

variable {count : UInt32} {l : PieceLayout}

/-- **A worker** gives the pieces of its share that are there, unless one of them has no room. -/
theorem verifyPieces_spec (hplaced : Placed 0 l.files) (hcount : l.pieceCount = some count)
    (wanted : Option PieceMap) {c : VerifyFileCache F} (hc : c.Current disk) (idxs : List UInt32)
    (hidxs : ∀ idx ∈ idxs, idx < count) :
    ((verifyPieces disk sha1 hashes l wanted c idxs).isSome = true ↔
      ∀ idx ∈ idxs, PieceFits l wanted idx) ∧
    ∀ verified, verifyPieces disk sha1 hashes l wanted c idxs = some verified →
      verified = idxs.filter (isThere disk sha1 hashes l wanted c.paths) := by
  induction idxs generalizing c with
  | nil =>
    refine ⟨iff_of_true rfl fun idx hidx => absurd hidx List.not_mem_nil, fun verified h => ?_⟩
    exact (Option.some.inj h).symm
  | cons idx idxs ih =>
    have hrest : ∀ i ∈ idxs, i < count := fun i hi => hidxs i (List.mem_cons_of_mem _ hi)
    obtain ⟨hsome, hread⟩ := readPieceInto_spec hplaced hcount hc (hidxs idx List.mem_cons_self)
    rw [verifyPieces, List.forall_mem_cons, List.filter_cons]
    by_cases hwanted : isWanted wanted idx = true
    · rw [if_pos hwanted]
      cases hpiece : readPieceInto disk l c idx with
      | none =>
        rw [hpiece] at hsome
        refine ⟨iff_of_false nofun fun h => ?_, nofun⟩
        exact absurd (hsome.mpr (h.1 hwanted)) nofun
      | some r =>
        obtain ⟨d, buf⟩ := r
        rw [hpiece] at hsome
        obtain ⟨hcur, hpaths, segs, hsegs, hbuf⟩ := hread d buf hpiece
        obtain ⟨hsome', hverified⟩ := ih hcur hrest
        rw [hpaths] at hverified
        have hthere : verifyPiece sha1 hashes idx buf =
            isThere disk sha1 hashes l wanted c.paths idx := by
          rw [isThere, hwanted, Bool.true_and, hsegs, hbuf]
          dsimp only
          cases covers disk c.paths segs with
          | true => rw [if_pos rfl, Bool.true_and, verifyPiece]
          | false => rw [if_neg Bool.false_ne_true, Bool.false_and, verifyPiece]
        have hfits : PieceFits l wanted idx := fun _ => hsome.mp rfl
        rw [Option.bind_eq_bind, Option.bind_some]
        dsimp only
        rw [hthere]
        cases hothers : verifyPieces disk sha1 hashes l wanted d idxs with
        | none =>
          rw [hothers] at hsome'
          exact ⟨iff_of_false nofun fun h => absurd (hsome'.mpr h.2) nofun, nofun⟩
        | some others =>
          rw [hothers] at hsome'
          refine ⟨iff_of_true rfl ⟨hfits, hsome'.mp rfl⟩, fun verified h => ?_⟩
          rw [← hverified others hothers]
          exact (Option.some.inj h).symm
    · rw [if_neg hwanted]
      obtain ⟨hsome', hverified⟩ := ih hc hrest
      have hnot : isThere disk sha1 hashes l wanted c.paths idx = false := by
        rw [isThere, Bool.eq_false_iff.mpr hwanted, Bool.false_and]
      rw [hnot, if_neg Bool.false_ne_true]
      exact ⟨hsome'.trans ⟨fun h => ⟨fun hw => absurd hw hwanted, h⟩, fun h => h.2⟩, hverified⟩

theorem inU32_eq_some {n m : Nat} : inU32 n = some m ↔ n = m ∧ n < 2 ^ 32 := by
  unfold inU32
  constructor
  · intro h
    obtain ⟨hlt, heq⟩ := Option.ite_none_right_eq_some.mp h
    exact ⟨Option.some.inj heq, hlt⟩
  · rintro ⟨rfl, hlt⟩
    exact if_pos hlt

/-- The pieces of a share. -/
def sharePieces (count chunk worker : Nat) : List UInt32 :=
  (Shares.share count chunk worker).map UInt32.ofNat

theorem mem_sharePieces {chunk worker : Nat} {idx : UInt32}
    (h : idx ∈ sharePieces count.toNat chunk worker) : idx < count := by
  obtain ⟨k, hk, rfl⟩ := List.mem_map.mp h
  have := List.mem_range'_1.mp hk
  exact PieceMap.ofNat_lt (by omega)

theorem verifyShare_spec (hplaced : Placed 0 l.files) (hcount : l.pieceCount = some count)
    (wanted : Option PieceMap) (paths : List F) (chunk worker : Nat) :
    ((verifyShare disk sha1 hashes l wanted paths count.toNat chunk worker).isSome = true ↔
      worker * chunk + chunk < 2 ^ 32 ∧
        ∀ idx ∈ sharePieces count.toNat chunk worker, PieceFits l wanted idx) ∧
    ∀ verified, verifyShare disk sha1 hashes l wanted paths count.toNat chunk worker =
        some verified →
      verified = (sharePieces count.toNat chunk worker).filter
        (isThere disk sha1 hashes l wanted paths) := by
  obtain ⟨hsome, hverified⟩ := verifyPieces_spec disk sha1 hashes hplaced hcount wanted
    (VerifyFileCache.current_new paths 8) (sharePieces count.toNat chunk worker)
    fun idx hidx => mem_sharePieces hidx
  by_cases hroom : worker * chunk + chunk < 2 ^ 32
  · unfold verifyShare
    rw [inU32_eq_some.mpr ⟨rfl, by omega⟩, Option.bind_eq_bind, Option.bind_some,
      inU32_eq_some.mpr ⟨rfl, hroom⟩, Option.bind_some]
    exact ⟨hsome.trans (and_iff_right hroom).symm, hverified⟩
  · have hnone : verifyShare disk sha1 hashes l wanted paths count.toNat chunk worker = none := by
      refine Option.eq_none_iff_forall_ne_some.mpr fun verified h => hroom ?_
      obtain ⟨start, hstart, h⟩ := Option.bind_eq_some_iff.mp h
      obtain ⟨stop, hstop, -⟩ := Option.bind_eq_some_iff.mp h
      obtain ⟨rfl, -⟩ := inU32_eq_some.mp hstart
      exact (inU32_eq_some.mp hstop).2
    rw [hnone]
    exact ⟨iff_of_false nofun fun h => hroom h.1, nofun⟩

/-- **All workers together** give the pieces that are there, in some order. -/
theorem verifyShares_spec (hplaced : Placed 0 l.files) (hcount : l.pieceCount = some count)
    (wanted : Option PieceMap) (paths : List F) (chunk : Nat) (workers : List Nat) :
    ((verifyShares disk sha1 hashes l wanted paths count.toNat chunk workers).isSome = true ↔
      ∀ worker ∈ workers, worker * chunk + chunk < 2 ^ 32 ∧
        ∀ idx ∈ sharePieces count.toNat chunk worker, PieceFits l wanted idx) ∧
    ∀ verified, verifyShares disk sha1 hashes l wanted paths count.toNat chunk workers =
        some verified →
      verified = (workers.flatMap (sharePieces count.toNat chunk)).filter
        (isThere disk sha1 hashes l wanted paths) := by
  induction workers with
  | nil =>
    refine ⟨iff_of_true rfl fun w hw => absurd hw List.not_mem_nil, fun verified h => ?_⟩
    exact (Option.some.inj h).symm
  | cons worker workers ih =>
    obtain ⟨hsome, hown⟩ := verifyShare_spec disk sha1 hashes hplaced hcount wanted paths
      chunk worker
    obtain ⟨hsome', hothers⟩ := ih
    rw [verifyShares, List.forall_mem_cons, List.flatMap_cons, List.filter_append]
    cases hshare : verifyShare disk sha1 hashes l wanted paths count.toNat chunk worker with
    | none =>
      rw [hshare] at hsome
      exact ⟨iff_of_false nofun fun h => absurd (hsome.mpr h.1) nofun, nofun⟩
    | some own =>
      rw [hshare] at hsome
      cases hrest : verifyShares disk sha1 hashes l wanted paths count.toNat chunk workers with
      | none =>
        rw [hrest] at hsome'
        exact ⟨iff_of_false nofun fun h => absurd (hsome'.mpr h.2) nofun, nofun⟩
      | some others =>
        rw [hrest] at hsome'
        refine ⟨iff_of_true rfl ⟨hsome.mp rfl, hsome'.mp rfl⟩, fun verified h => ?_⟩
        rw [← hown own hshare, ← hothers others hrest]
        exact (Option.some.inj h).symm

/-! ## The whole -/

/-- The pieces up to one have the bytes up to its end. -/
theorem total_pieceSize {n : Nat} (hn : n < 2 ^ 32) :
    total l.pieceSize ((List.range n).map UInt32.ofNat) =
      min (n * l.pieceLength.toNat) l.size := by
  induction n with
  | zero => rw [Nat.zero_mul, Nat.zero_min]; rfl
  | succ n ih =>
    have hmod : (UInt32.ofNat n).toNat = n := by
      rw [UInt32.toNat_ofNat']
      exact Nat.mod_eq_of_lt (by omega)
    rw [List.range_succ, List.map_append, Tiling.total_append, ih (by omega), List.map_cons,
      List.map_nil, Tiling.total_cons, Tiling.total_nil, Nat.add_zero, PieceLayout.pieceSize, hmod,
      Nat.succ_mul]
    omega

theorem total_filter_le {α : Type} (f : α → Nat) (p : α → Bool) (xs : List α) :
    total f (xs.filter p) ≤ total f xs := by
  induction xs with
  | nil => exact Nat.le_refl _
  | cons x xs ih =>
    rw [List.filter_cons, Tiling.total_cons]
    split
    · exact Nat.add_le_add_left ih _
    · exact Nat.le_trans ih (Nat.le_add_left _ _)

theorem wantedBytes_of_room (hcount : l.pieceCount = some count) (wanted : Option PieceMap)
    {idxs : List UInt32} (hidxs : ∀ idx ∈ idxs, idx < count) (acc : UInt64)
    (hroom : acc.toNat + total l.pieceSize (idxs.filter (isWanted wanted)) < 18446744073709551616) :
    ∃ n, wantedBytes l wanted acc idxs = some n ∧
      n.toNat = acc.toNat + total l.pieceSize (idxs.filter (isWanted wanted)) := by
  induction idxs generalizing acc with
  | nil => exact ⟨acc, rfl, rfl⟩
  | cons idx idxs ih =>
    have hrest : ∀ i ∈ idxs, i < count := fun i hi => hidxs i (List.mem_cons_of_mem _ hi)
    rw [wantedBytes]
    by_cases hwanted : isWanted wanted idx = true
    · rw [List.filter_cons, if_pos hwanted, Tiling.total_cons] at hroom
      rw [if_pos hwanted, List.filter_cons, if_pos hwanted, Tiling.total_cons]
      obtain ⟨need, hneed, -⟩ := exists_need hcount (hidxs idx List.mem_cons_self)
      have hlen := PieceLayout.pieceLen_eq_some hneed
      obtain ⟨next, hadd, hnext⟩ := @Checked.exists_add acc need (by omega)
      obtain ⟨n, hn, htotal⟩ := ih hrest next (by omega)
      rw [hneed, Option.bind_eq_bind, Option.bind_some, hadd, Option.bind_some]
      exact ⟨n, hn, by omega⟩
    · rw [List.filter_cons, if_neg hwanted] at hroom
      rw [if_neg hwanted, List.filter_cons, if_neg hwanted]
      exact ih hrest acc hroom

/-- The bytes of the wanted pieces come to a number. -/
theorem wantedBytes_spec (hcount : l.pieceCount = some count) (wanted : Option PieceMap) :
    ∃ n, wantedBytes l wanted 0 (indices count) = some n ∧
      n.toNat = total l.pieceSize ((indices count).filter (isWanted wanted)) := by
  obtain ⟨size, htotal, -⟩ := Option.bind_eq_some_iff.mp hcount
  have hsize := PieceLayout.totalLength_eq_some.mp htotal
  have hlt := size.toNat_lt
  have hall : total l.pieceSize (indices count) ≤ l.size := by
    rw [indices, total_pieceSize count.toNat_lt]
    exact Nat.min_le_right _ _
  have hle := total_filter_le l.pieceSize (isWanted wanted) (indices count)
  have hzero : (0 : UInt64).toNat = 0 := rfl
  obtain ⟨n, hn, hsum⟩ := wantedBytes_of_room hcount wanted
    (fun idx hidx => mem_indices.mp hidx) 0 (by rw [hzero]; omega)
  exact ⟨n, hn, by rw [hsum, hzero, Nat.zero_add]⟩

/-- One bit is set. -/
def mark (bits : List UInt8) (idx : UInt32) : List UInt8 :=
  bits.modify (idx / 8).toNat fun byte => byte ||| bitMask idx

theorem mark_comm (bits : List UInt8) (i j : UInt32) :
    mark (mark bits i) j = mark (mark bits j) i := by
  refine List.ext_getElem? fun k => ?_
  simp only [mark, List.getElem?_modify, Option.map_eq_map]
  cases bits[k]? with
  | none => rfl
  | some byte =>
    simp only [Option.map_some, Option.some.injEq]
    by_cases hi : (i / 8).toNat = k
    · by_cases hj : (j / 8).toNat = k
      · rw [if_pos hi, if_pos hj, if_pos hi, if_pos hj, UInt8.or_assoc, UInt8.or_assoc,
          UInt8.or_comm (bitMask i)]
      · rw [if_pos hi, if_neg hj, if_pos hi, if_neg hj]
    · by_cases hj : (j / 8).toNat = k
      · rw [if_neg hi, if_pos hj, if_neg hi]
      · rw [if_neg hi, if_neg hj, if_neg hi]

/-- Bits are set in any order. -/
theorem collect_perm (l : PieceLayout) (count : Nat) {xs ys : List UInt32} (h : xs.Perm ys) :
    collect l count xs = collect l count ys := by
  have hbits := List.Perm.foldl_eq' h (f := mark) (fun i _ j _ bits => mark_comm bits i j)
    (List.replicate ((count + 7) / 8) 0)
  unfold collect
  rw [Tiling.total_perm h, h.length_eq]
  exact congrArg (ExistingVerification.mk · _ _) hbits

theorem bitAt_foldl {idxs : List UInt32} (hidxs : ∀ idx ∈ idxs, idx < count) (bits : List UInt8)
    (hbits : bits.length = (count.toNat + 7) / 8) (k : Nat) :
    bitAt (idxs.foldl mark bits) k = true ↔
      bitAt bits k = true ∨ ∃ idx ∈ idxs, idx.toNat = k := by
  induction idxs generalizing bits with
  | nil => exact ⟨.inl, fun h => h.resolve_right fun ⟨_, hmem, _⟩ => List.not_mem_nil hmem⟩
  | cons idx idxs ih =>
    have hlt := UInt32.lt_iff_toNat_lt.mp (hidxs idx List.mem_cons_self)
    have hdiv : (idx / 8).toNat = idx.toNat / 8 := UInt32.toNat_div idx 8
    have hmark : bitAt (mark bits idx) k = (bitAt bits k || decide (k = idx.toNat)) := by
      rw [mark, bitMask_eq, hdiv, bitAt_modify (by omega)]
    rw [List.foldl_cons, ih (fun i hi => hidxs i (List.mem_cons_of_mem _ hi)) _
      (by rw [mark, List.length_modify, hbits]), hmark, Bool.or_eq_true, decide_eq_true_iff,
      or_assoc]
    refine or_congr_right ⟨?_, ?_⟩
    · rintro (rfl | ⟨i, hi, rfl⟩)
      · exact ⟨idx, List.mem_cons_self, rfl⟩
      · exact ⟨i, List.mem_cons_of_mem _ hi, rfl⟩
    · rintro ⟨i, hi, rfl⟩
      rcases List.mem_cons.mp hi with rfl | hi
      · exact .inl rfl
      · exact .inr ⟨i, hi, rfl⟩

/-- The bits of a collection. -/
theorem bitAt_collect (l : PieceLayout) {idxs : List UInt32} (hidxs : ∀ idx ∈ idxs, idx < count)
    (k : Nat) :
    bitAt (collect l count.toNat idxs).bitfield k = true ↔ ∃ idx ∈ idxs, idx.toNat = k := by
  have hfold := bitAt_foldl hidxs (List.replicate ((count.toNat + 7) / 8) 0)
    List.length_replicate k
  rw [bitAt_replicate] at hfold
  exact hfold.trans ⟨fun h => h.resolve_left Bool.false_ne_true, .inr⟩

/-- The workers are at least one, and their shares reach the last piece. -/
theorem verifyWorkers_covers (count totalBytes : Nat) (parallelism : Option Nat) :
    0 < verifyWorkers count totalBytes parallelism ∧
      count ≤ verifyWorkers count totalBytes parallelism *
        Checked.ceilDiv count (verifyWorkers count totalBytes parallelism) := by
  have hpos : 0 < verifyWorkers count totalBytes parallelism := by
    unfold verifyWorkers
    split
    · exact Nat.one_pos
    · rename_i h
      omega
  refine ⟨hpos, Nat.not_lt.mp fun hlt => ?_⟩
  -- otherwise the quotient would be below itself
  rw [Nat.mul_comm] at hlt
  exact Nat.lt_irrefl _ ((Checked.lt_ceilDiv_iff hpos).mpr hlt)

/-- The shares of all workers are the pieces. -/
theorem flatMap_sharePieces {chunk workers : Nat} {order : List Nat}
    (hperm : order.Perm (List.range workers)) (hcovers : count.toNat ≤ workers * chunk) :
    (order.flatMap (sharePieces count.toNat chunk)).Perm (indices count) := by
  have hall : (List.range workers).flatMap (sharePieces count.toNat chunk) = indices count := by
    rw [indices, ← Shares.shares_range hcovers, List.map_flatMap]
    rfl
  rw [← hall]
  exact List.Perm.flatMap_right _ hperm

/-- All workers have room exactly if the pieces and the last share have. -/
theorem sharesFit_iff {wanted : Option PieceMap} {chunk workers : Nat} {order : List Nat}
    (hperm : order.Perm (List.range workers)) (hpos : 0 < workers)
    (hcovers : count.toNat ≤ workers * chunk) :
    (∀ worker ∈ order, worker * chunk + chunk < 2 ^ 32 ∧
        ∀ idx ∈ sharePieces count.toNat chunk worker, PieceFits l wanted idx) ↔
      (∀ idx < count, PieceFits l wanted idx) ∧ workers * chunk < 2 ^ 32 := by
  have hpieces := flatMap_sharePieces hperm hcovers
  constructor
  · intro h
    constructor
    · intro idx hidx
      obtain ⟨worker, hworker, hin⟩ :=
        List.mem_flatMap.mp (hpieces.mem_iff.mpr (mem_indices.mpr hidx))
      exact (h worker hworker).2 idx hin
    · have hlast := (h (workers - 1) (hperm.mem_iff.mpr (List.mem_range.mpr (by omega)))).1
      rw [← Nat.succ_mul, Nat.succ_eq_add_one, Nat.sub_add_cancel hpos] at hlast
      exact hlast
  · rintro ⟨hfits, hroom⟩ worker hworker
    have hlt := List.mem_range.mp (hperm.mem_iff.mp hworker)
    refine ⟨?_, fun idx hidx => hfits idx (mem_sharePieces hidx)⟩
    rw [← Nat.succ_mul]
    exact Nat.lt_of_le_of_lt (Nat.mul_le_mul_right _ hlt) hroom

end

/-! ## A last piece behind the last number -/

/-- Three large files and a small one, which is the last piece. -/
def fourPieces : PieceLayout where
  pieceLength := 0x4000000000000000
  files := [⟨["a"], 0x4000000000000000, 0⟩, ⟨["b"], 0x4000000000000000, 0x4000000000000000⟩,
    ⟨["c"], 0x4000000000000000, 0x8000000000000000⟩, ⟨["d"], 1, 0xC000000000000000⟩]
  multiFile := true

/-- Workers are done in the order of their numbers. -/
def Schedule.inOrder : Schedule := ⟨List.range, fun _ => List.Perm.refl _⟩

/-- Five pieces of two bytes in two files, of which the second one is too short. -/
def fivePieces : PieceLayout where
  pieceLength := 2
  files := [⟨["a"], 5, 0⟩, ⟨["b"], 4, 5⟩]
  multiFile := true

theorem fivePieces_placed : Placed 0 fivePieces.files := ⟨rfl, rfl, trivial⟩

end XferRust.Storage
