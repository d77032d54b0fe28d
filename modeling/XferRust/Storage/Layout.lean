import XferRust.Lib.Checked
import XferRust.Bencode.Torrent

/-! # The layout of a torrent's files

The files of a torrent lie one after the other, and the pieces cut the whole into equal parts.
`Info` does this arithmetic for itself; a `PieceLayout`, which the storage is built on, does it
again.  A function returns nothing where the arithmetic of the source overflows, where a cast
truncates and where an index lies outside its list.
-/
namespace XferRust

/-- The part between `pieceStart` and `pieceEnd` of a file between `fStart` and `fEnd`, as an
offset in the file and a length: the body of the loop of `piece_segments`. -/
def clip (pieceStart pieceEnd fStart fEnd : UInt64) : Option (Option (UInt64 × UInt64)) :=
  if pieceEnd ≤ fStart || pieceStart ≥ fEnd then some none
  else do
    let segStart ← Checked.sub (max pieceStart fStart) fStart
    let segEnd ← Checked.sub (min pieceEnd fEnd) fStart
    let len ← Checked.sub segEnd segStart
    some (some (segStart, len))

/-- The number of a file, the offset in it and the length. -/
structure Segment where
  file : Nat
  offset : UInt64
  len : UInt64

def Segment.push (file : Nat) (cut : Option (UInt64 × UInt64)) (rest : List Segment) :
    List Segment :=
  match cut with
  | none => rest
  | some (offset, len) => { file, offset, len } :: rest

/-- `piece_len`, the same for both. -/
def pieceLenIn (total : Option UInt64) (pieceLength : UInt64) (index : UInt32) :
    Option UInt64 := do
  let total ← total
  let start ← Checked.mul index.toUInt64 pieceLength
  if start ≥ total then some 0
  else
    let rest ← Checked.sub total start
    some (min rest pieceLength)

namespace Bencode.Info

def totalLength (info : Info) : Option UInt64 := Checked.sumFrom FileEntry.length 0 info.files

/-- `piece_count`. -/
def pieceCount (info : Info) : Option UInt32 := do
  let total ← info.totalLength
  let byLen := if info.pieceLength = 0 then 0 else Checked.divCeil total info.pieceLength
  let hashes := info.pieces.length
  Checked.toU32 (if hashes < byLen.toNat then UInt64.ofNat hashes else byLen)

/-- `piece_len`. -/
def pieceLen (info : Info) (index : UInt32) : Option UInt64 :=
  pieceLenIn info.totalLength info.pieceLength index

/-- The segments in the files from number `fi` on, the first of which starts at `cursor`. -/
def segmentsFrom (pieceStart pieceEnd : UInt64) : Nat → UInt64 → List FileEntry →
    Option (List Segment)
  | _, _, [] => some []
  | fi, cursor, f :: files => do
    let fEnd ← Checked.add cursor f.length
    let cut ← clip pieceStart pieceEnd cursor fEnd
    let rest ← segmentsFrom pieceStart pieceEnd (fi + 1) fEnd files
    some (Segment.push fi cut rest)

/-- `piece_segments`. -/
def pieceSegments (info : Info) (index : UInt32) : Option (List Segment) := do
  let pieceStart ← Checked.mul index.toUInt64 info.pieceLength
  let fullEnd ← Checked.add pieceStart info.pieceLength
  let total ← info.totalLength
  segmentsFrom pieceStart (min fullEnd total) 0 0 info.files

/-- `locate` in the files from number `fi` on. -/
def locateFrom (offset : UInt64) (count : Nat) : Nat → UInt64 → List FileEntry →
    Option (Nat × UInt64)
  | _, _, [] => if count = 0 then none else some (count - 1, 0)
  | fi, cursor, f :: files => do
    let fEnd ← Checked.add cursor f.length
    if offset < fEnd then
      let inFile ← Checked.sub offset cursor
      some (fi, inFile)
    else locateFrom offset count (fi + 1) fEnd files

/-- `locate`. -/
def locate (info : Info) (offset : UInt64) : Option (Nat × UInt64) :=
  locateFrom offset info.files.length 0 0 info.files

def offsetsFrom : UInt64 → List FileEntry → Option (List UInt64)
  | _, [] => some []
  | cursor, f :: files => do
    let fEnd ← Checked.add cursor f.length
    let rest ← offsetsFrom fEnd files
    some (cursor :: rest)

/-- `file_offsets`. -/
def fileOffsets (info : Info) : Option (List UInt64) := offsetsFrom 0 info.files

end Bencode.Info

namespace Storage
open Bencode (Info FileEntry)

structure FileLayout where
  path : List String
  length : UInt64
  offset : UInt64

structure PieceLayout where
  pieceLength : UInt64
  files : List FileLayout
  multiFile : Bool

namespace PieceLayout

def place : UInt64 → List (List String × UInt64) → Option (List FileLayout)
  | _, [] => some []
  | offset, (path, length) :: files => do
    let next ← Checked.add offset length
    let rest ← place next files
    some ({ path, length, offset } :: rest)

def new (pieceLength : UInt64) (files : List (List String × UInt64)) : Option PieceLayout := do
  let files ← place 0 files
  let single := match files with
    | [f] => f.path.length == 1
    | _ => false
  some { pieceLength, files, multiFile := !single }

def withMultiFile (l : PieceLayout) (multiFile : Bool) : PieceLayout := { l with multiFile }

def totalLength (l : PieceLayout) : Option UInt64 := Checked.sumFrom FileLayout.length 0 l.files

/-- `piece_count`. -/
def pieceCount (l : PieceLayout) : Option UInt32 := do
  let total ← l.totalLength
  if l.pieceLength = 0 then some 0 else Checked.toU32 (Checked.divCeil total l.pieceLength)

/-- `piece_len`. -/
def pieceLen (l : PieceLayout) (index : UInt32) : Option UInt64 :=
  pieceLenIn l.totalLength l.pieceLength index

/-- The segments in the files from number `fi` on. -/
def segmentsFrom (pieceStart pieceEnd : UInt64) : Nat → List FileLayout → Option (List Segment)
  | _, [] => some []
  | fi, f :: files => do
    let fEnd ← Checked.add f.offset f.length
    let cut ← clip pieceStart pieceEnd f.offset fEnd
    let rest ← segmentsFrom pieceStart pieceEnd (fi + 1) files
    some (Segment.push fi cut rest)

/-- `piece_segments`. -/
def pieceSegments (l : PieceLayout) (index : UInt32) : Option (List Segment) := do
  let pieceStart ← Checked.mul index.toUInt64 l.pieceLength
  let fullEnd ← Checked.add pieceStart l.pieceLength
  let total ← l.totalLength
  segmentsFrom pieceStart (min fullEnd total) 0 l.files

/-- The layout that an engine builds for a torrent. -/
def ofInfo (info : Info) : Option PieceLayout := do
  let layout ← new info.pieceLength (info.files.map fun f => (f.path, f.length))
  some (layout.withMultiFile info.multiFile)

end PieceLayout

end Storage

/-! ## When the arithmetic is exact -/

open Tiling (total)
open Checked (ceilDiv)

/-- The file and the span have nothing in common. -/
theorem outside_iff {ps pe fs fe : UInt64} :
    (decide (pe ≤ fs) || decide (ps ≥ fe)) = true ↔
      pe.toNat ≤ fs.toNat ∨ fe.toNat ≤ ps.toNat := by
  rw [Bool.or_eq_true, decide_eq_true_eq, decide_eq_true_eq, ge_iff_le, UInt64.le_iff_toNat_le,
    UInt64.le_iff_toNat_le]

theorem clip_spec {ps pe fs fe : UInt64} {cut : Option (UInt64 × UInt64)}
    (h : clip ps pe fs fe = some cut) :
    (cut = none ∧ (pe.toNat ≤ fs.toNat ∨ fe.toNat ≤ ps.toNat)) ∨
      ∃ off len, cut = some (off, len) ∧ fs.toNat < pe.toNat ∧ ps.toNat < fe.toNat ∧
        off.toNat + fs.toNat = max ps.toNat fs.toNat ∧
        off.toNat + fs.toNat + len.toNat = min pe.toNat fe.toNat := by
  unfold clip at h
  split at h
  · rename_i hout
    rw [outside_iff] at hout
    exact .inl ⟨(Option.some.inj h).symm, hout⟩
  · rename_i hin
    rw [outside_iff] at hin
    obtain ⟨segStart, hstart, h⟩ := Option.bind_eq_some_iff.mp h
    obtain ⟨segEnd, hend, h⟩ := Option.bind_eq_some_iff.mp h
    obtain ⟨len, hlen, h⟩ := Option.bind_eq_some_iff.mp h
    have hs := Checked.sub_eq_some.mp hstart
    have he := Checked.sub_eq_some.mp hend
    have hl := Checked.sub_eq_some.mp hlen
    rw [Word.toNat_max] at hs
    rw [Word.toNat_min] at he
    exact .inr ⟨segStart, len, (Option.some.inj h).symm, by omega, by omega, hs, by omega⟩

theorem exists_clip {ps pe fs fe : UInt64} (hp : ps.toNat ≤ pe.toNat) (hf : fs.toNat ≤ fe.toNat) :
    ∃ cut, clip ps pe fs fe = some cut := by
  unfold clip
  split
  · exact ⟨none, rfl⟩
  · rename_i hin
    rw [outside_iff] at hin
    have hmax := Word.toNat_max ps fs
    have hmin := Word.toNat_min pe fe
    obtain ⟨segStart, hstart, hs⟩ := @Checked.exists_sub (max ps fs) fs (by omega)
    obtain ⟨segEnd, hend, he⟩ := @Checked.exists_sub (min pe fe) fs (by omega)
    obtain ⟨len, hlen, -⟩ := @Checked.exists_sub segEnd segStart (by omega)
    refine ⟨some (segStart, len), ?_⟩
    simp only [hstart, hend, hlen, Option.bind_eq_bind, Option.bind_some]

theorem exists_pieceLenIn {size pl : UInt64} {index : UInt32}
    (h : index.toNat * pl.toNat < 18446744073709551616) :
    ∃ n, pieceLenIn (some size) pl index = some n := by
  unfold pieceLenIn
  obtain ⟨start, hstart, hs⟩ := @Checked.exists_mul index.toUInt64 pl h
  rw [Option.bind_eq_bind, Option.bind_some, hstart, Option.bind_some]
  split
  · exact ⟨0, rfl⟩
  · rename_i hlt
    rw [ge_iff_le, UInt64.le_iff_toNat_le] at hlt
    obtain ⟨rest, hrest, -⟩ := @Checked.exists_sub size start (by omega)
    rw [hrest]
    exact ⟨_, rfl⟩

namespace Bencode.Info

/-- The lengths of the files, added up without a bound. -/
def size (info : Info) : Nat := total (fun f => f.length.toNat) info.files

theorem totalLength_eq_some {info : Info} {n : UInt64} :
    info.totalLength = some n ↔ n.toNat = info.size := by
  rw [totalLength, Checked.sumFrom_eq_some, UInt64.toNat_zero, Nat.zero_add]
  exact Iff.rfl

theorem exists_locateFrom {offset : UInt64} {count : Nat} (hc : count ≠ 0)
    {files : List FileEntry} {fi : Nat} {cursor : UInt64} (hcur : cursor.toNat ≤ offset.toNat)
    (h : cursor.toNat + total (fun f => f.length.toNat) files < 18446744073709551616) :
    ∃ r, locateFrom offset count fi cursor files = some r := by
  induction files generalizing fi cursor with
  | nil => exact ⟨_, if_neg hc⟩
  | cons f files ih =>
    rw [Tiling.total_cons] at h
    obtain ⟨fEnd, hadd, hend⟩ := @Checked.exists_add cursor f.length (by omega)
    rw [locateFrom, hadd, Option.bind_eq_bind, Option.bind_some]
    split
    · obtain ⟨inFile, hsub, -⟩ := Checked.exists_sub hcur
      rw [hsub]
      exact ⟨_, rfl⟩
    · rename_i hlt
      rw [UInt64.lt_iff_toNat_lt] at hlt
      exact ih (by omega) (by omega)

theorem exists_offsetsFrom {files : List FileEntry} {cursor : UInt64}
    (h : cursor.toNat + total (fun f => f.length.toNat) files < 18446744073709551616) :
    ∃ os, offsetsFrom cursor files = some os := by
  induction files generalizing cursor with
  | nil => exact ⟨[], rfl⟩
  | cons f files ih =>
    rw [Tiling.total_cons] at h
    obtain ⟨fEnd, hadd, hend⟩ := @Checked.exists_add cursor f.length (by omega)
    obtain ⟨rest, hrest⟩ := @ih fEnd (by omega)
    refine ⟨cursor :: rest, ?_⟩
    simp only [offsetsFrom, hadd, hrest, Option.bind_eq_bind, Option.bind_some]

end Bencode.Info

namespace Storage.PieceLayout
open Bencode (Info FileEntry)

/-- Each file starts where the one before it ends; the first starts at `lo`. -/
def Placed : Nat → List FileLayout → Prop
  | _, [] => True
  | lo, f :: files => f.offset.toNat = lo ∧ Placed (lo + f.length.toNat) files

/-- The lengths of the files, added up without a bound. -/
def size (l : PieceLayout) : Nat := total (fun f => f.length.toNat) l.files

theorem totalLength_eq_some {l : PieceLayout} {n : UInt64} :
    l.totalLength = some n ↔ n.toNat = l.size := by
  rw [totalLength, Checked.sumFrom_eq_some, UInt64.toNat_zero, Nat.zero_add]
  exact Iff.rfl

theorem exists_place {files : List (List String × UInt64)} {offset : UInt64}
    (h : offset.toNat + total (fun f => f.2.toNat) files < 18446744073709551616) :
    ∃ ls, place offset files = some ls := by
  induction files generalizing offset with
  | nil => exact ⟨[], rfl⟩
  | cons f files ih =>
    obtain ⟨path, length⟩ := f
    replace h : offset.toNat + (length.toNat + total (fun f => f.2.toNat) files) < _ := h
    obtain ⟨next, hadd, hnext⟩ := @Checked.exists_add offset length (by omega)
    obtain ⟨rest, hrest⟩ := @ih next (by omega)
    refine ⟨{ path, length, offset } :: rest, ?_⟩
    simp only [place, hadd, hrest, Option.bind_eq_bind, Option.bind_some]

theorem place_spec {files : List (List String × UInt64)} {offset : UInt64} {ls : List FileLayout}
    (h : place offset files = some ls) :
    Placed offset.toNat ls ∧
      total (fun f => f.length.toNat) ls = total (fun f => f.2.toNat) files ∧
      offset.toNat + total (fun f => f.length.toNat) ls < 18446744073709551616 := by
  induction files generalizing offset ls with
  | nil =>
    obtain rfl := Option.some.inj h
    exact ⟨trivial, rfl, offset.toNat_lt⟩
  | cons f files ih =>
    obtain ⟨path, length⟩ := f
    obtain ⟨next, hadd, h⟩ := Option.bind_eq_some_iff.mp h
    obtain ⟨rest, hrest, h⟩ := Option.bind_eq_some_iff.mp h
    obtain rfl := Option.some.inj h
    obtain ⟨hplaced, htotal, hlt⟩ := ih hrest
    have hnext := Checked.add_eq_some.mp hadd
    rw [hnext] at hplaced hlt
    refine ⟨⟨rfl, hplaced⟩, congrArg (length.toNat + ·) htotal, ?_⟩
    rw [Tiling.total_cons]
    show offset.toNat + (length.toNat + _) < _
    omega

/-- The segments of a span have none of its first file, or a cut of it. -/
theorem segmentsFrom_cons {ps pe : UInt64} {fi : Nat} {f : FileLayout} {files : List FileLayout}
    {segs : List Segment} (h : segmentsFrom ps pe fi (f :: files) = some segs) :
    ∃ rest, segmentsFrom ps pe (fi + 1) files = some rest ∧
      (segs = rest ∧ (pe.toNat ≤ f.offset.toNat ∨ f.offset.toNat + f.length.toNat ≤ ps.toNat) ∨
        ∃ off len, segs = ⟨fi, off, len⟩ :: rest ∧ f.offset.toNat < pe.toNat ∧
          ps.toNat < f.offset.toNat + f.length.toNat ∧
          off.toNat + f.offset.toNat = max ps.toNat f.offset.toNat ∧
          off.toNat + f.offset.toNat + len.toNat =
            min pe.toNat (f.offset.toNat + f.length.toNat)) := by
  obtain ⟨fEnd, hadd, h⟩ := Option.bind_eq_some_iff.mp h
  obtain ⟨cut, hcut, h⟩ := Option.bind_eq_some_iff.mp h
  obtain ⟨rest, hrest, h⟩ := Option.bind_eq_some_iff.mp h
  obtain rfl := Option.some.inj h
  rw [← Checked.add_eq_some.mp hadd]
  refine ⟨rest, hrest, ?_⟩
  rcases clip_spec hcut with ⟨rfl, hout⟩ | ⟨off, len, rfl, hin⟩
  · exact .inl ⟨rfl, hout⟩
  · exact .inr ⟨off, len, rfl, hin⟩

theorem exists_segmentsFrom {ps pe : UInt64} (hp : ps.toNat ≤ pe.toNat) {files : List FileLayout}
    {fi lo : Nat} (hplaced : Placed lo files)
    (h : lo + total (fun f => f.length.toNat) files < 18446744073709551616) :
    ∃ segs, segmentsFrom ps pe fi files = some segs := by
  induction files generalizing fi lo with
  | nil => exact ⟨[], rfl⟩
  | cons f files ih =>
    rw [Tiling.total_cons] at h
    obtain ⟨hoff, hplaced⟩ := hplaced
    obtain ⟨fEnd, hadd, hend⟩ := @Checked.exists_add f.offset f.length (by omega)
    obtain ⟨cut, hcut⟩ := @exists_clip ps pe f.offset fEnd hp (by omega)
    obtain ⟨rest, hrest⟩ := @ih (fi + 1) _ hplaced (by omega)
    refine ⟨Segment.push fi cut rest, ?_⟩
    simp only [segmentsFrom, hadd, hcut, hrest, Option.bind_eq_bind, Option.bind_some]

/-- What a piece's segments are cut out of. -/
theorem pieceSegments_eq_some {l : PieceLayout} {i : UInt32} {segs : List Segment}
    (h : l.pieceSegments i = some segs) :
    ∃ ps pe, segmentsFrom ps pe 0 l.files = some segs ∧
      ps.toNat = i.toNat * l.pieceLength.toNat ∧
      pe.toNat = min (i.toNat * l.pieceLength.toNat + l.pieceLength.toNat) l.size ∧
      i.toNat * l.pieceLength.toNat + l.pieceLength.toNat < 18446744073709551616 := by
  obtain ⟨ps, hmul, h⟩ := Option.bind_eq_some_iff.mp h
  obtain ⟨full, hadd, h⟩ := Option.bind_eq_some_iff.mp h
  obtain ⟨size, htotal, h⟩ := Option.bind_eq_some_iff.mp h
  have hps : ps.toNat = i.toNat * l.pieceLength.toNat := Checked.mul_eq_some.mp hmul
  have hfull := Checked.add_eq_some.mp hadd
  have hsize := totalLength_eq_some.mp htotal
  have hlt := full.toNat_lt
  refine ⟨ps, _, h, hps, ?_, ?_⟩
  · rw [Word.toNat_min, hfull, hps, hsize]
  · rw [← hps, ← hfull]
    exact hlt

theorem exists_pieceSegments {l : PieceLayout} {index : UInt32} (hplaced : Placed 0 l.files)
    (hsize : l.size < 18446744073709551616) (hstart : index.toNat * l.pieceLength.toNat ≤ l.size)
    (hend : index.toNat * l.pieceLength.toNat + l.pieceLength.toNat < 18446744073709551616) :
    ∃ segs, l.pieceSegments index = some segs := by
  obtain ⟨n, hn⟩ := Checked.exists_toNat hsize
  obtain ⟨ps, hmul, hps⟩ := @Checked.exists_mul index.toUInt64 l.pieceLength
    (show index.toNat * _ < _ by omega)
  replace hps : ps.toNat = index.toNat * l.pieceLength.toNat := hps
  obtain ⟨full, hadd, hfull⟩ := @Checked.exists_add ps l.pieceLength (by omega)
  have hmin := Word.toNat_min full n
  obtain ⟨segs, hsegs⟩ := @exists_segmentsFrom ps (min full n) (by omega) l.files 0 0 hplaced
    (show 0 + l.size < _ by omega)
  refine ⟨segs, ?_⟩
  simp only [pieceSegments, hmul, hadd, totalLength_eq_some.mpr hn, hsegs, Option.bind_eq_bind,
    Option.bind_some]

theorem exists_ofInfo {info : Info} (h : info.size < 18446744073709551616) :
    ∃ l, ofInfo info = some l ∧ l.pieceLength = info.pieceLength ∧ l.size = info.size ∧
      Placed 0 l.files := by
  have hmap := Tiling.total_map (fun f : List String × UInt64 => f.2.toNat)
    (fun f : FileEntry => (f.path, f.length)) info.files
  obtain ⟨ls, hls⟩ := @exists_place (info.files.map fun f => (f.path, f.length)) 0
    (by rw [hmap, UInt64.toNat_zero, Nat.zero_add]; exact h)
  obtain ⟨hplaced, htotal, -⟩ := place_spec hls
  have hnew : ofInfo info = some
      { pieceLength := info.pieceLength, files := ls, multiFile := info.multiFile } := by
    simp only [ofInfo, new, hls, Option.bind_eq_bind, Option.bind_some, withMultiFile]
  exact ⟨_, hnew, rfl, htotal.trans hmap, hplaced⟩

/-! ### The segments of `Info` -/

theorem segmentsFrom_place {ps pe : UInt64} {files : List FileEntry} {offset : UInt64} {ls : List FileLayout}
    (h : place offset (files.map fun f => (f.path, f.length)) = some ls) (fi : Nat) :
    Info.segmentsFrom ps pe fi offset files = segmentsFrom ps pe fi ls := by
  induction files generalizing offset ls fi with
  | nil =>
    obtain rfl := Option.some.inj h
    rfl
  | cons f files ih =>
    obtain ⟨next, hadd, h⟩ := Option.bind_eq_some_iff.mp h
    obtain ⟨rest, hrest, h⟩ := Option.bind_eq_some_iff.mp h
    obtain rfl := Option.some.inj h
    show (Checked.add offset f.length).bind _ = (Checked.add offset f.length).bind _
    rw [hadd, Option.bind_some, Option.bind_some, ih hrest]

variable {info : Info} {l : PieceLayout}

/-- What is known of a layout that an engine builds. -/
theorem ofInfo_spec (h : ofInfo info = some l) :
    l.pieceLength = info.pieceLength ∧ l.size = info.size ∧ Placed 0 l.files ∧
      info.size < 18446744073709551616 ∧
      place 0 (info.files.map fun f => (f.path, f.length)) = some l.files := by
  obtain ⟨layout, hnew, h⟩ := Option.bind_eq_some_iff.mp h
  obtain ⟨files, hplace, hnew⟩ := Option.bind_eq_some_iff.mp hnew
  obtain rfl := Option.some.inj hnew
  obtain rfl := Option.some.inj h
  obtain ⟨hplaced, htotal, hlt⟩ := place_spec hplace
  have hsize : size ⟨info.pieceLength, files, info.multiFile⟩ = info.size :=
    htotal.trans (Tiling.total_map _ _ info.files)
  rw [UInt64.toNat_zero, Nat.zero_add] at hlt
  exact ⟨rfl, hsize, hplaced, hsize ▸ hlt, hplace⟩

/-- **The segments of both implementations are the same**, also where there are none. -/
theorem pieceSegments_ofInfo (h : ofInfo info = some l) (i : UInt32) :
    info.pieceSegments i = l.pieceSegments i := by
  obtain ⟨hlength, hsize, -, hlt, hplace⟩ := ofInfo_spec h
  obtain ⟨n, hn⟩ := Checked.exists_toNat hlt
  have hfrom := fun ps pe => @segmentsFrom_place ps pe info.files 0 l.files hplace 0
  simp only [Info.pieceSegments, pieceSegments, Info.totalLength_eq_some.mpr hn,
    totalLength_eq_some.mpr (hn.trans hsize.symm), hlength, hfrom]

end Storage.PieceLayout

/-! ## Safe layouts -/

namespace Bencode.Info
open Storage (PieceLayout)

/-- The number of pieces that the files fill. -/
def fullCount (info : Info) : Nat := ceilDiv info.size info.pieceLength.toNat

/-- All that is computed of the layout of a torrent is computed exactly, and no list is indexed
outside its bounds. -/
structure LayoutSafe (info : Info) : Prop where
  totalLength : ∃ n, info.totalLength = some n
  fileOffsets : ∃ os, info.fileOffsets = some os
  locate : ∀ offset : UInt64, ∃ r, info.locate offset = some r
  pieceCount : ∃ n, info.pieceCount = some n ∧ n.toNat = info.fullCount
  pieceLen : ∀ i : UInt32, i.toNat < info.fullCount → ∃ n, info.pieceLen i = some n
  pieceSegments : ∀ i : UInt32, i.toNat < info.fullCount → ∃ segs, info.pieceSegments i = some segs
  layout : ∃ l, PieceLayout.ofInfo info = some l ∧ (∃ n, l.totalLength = some n) ∧
    (∃ n, l.pieceCount = some n ∧ n.toNat = info.fullCount) ∧
    ∀ i : UInt32, i.toNat < info.fullCount →
      (∃ n, l.pieceLen i = some n) ∧ ∃ segs, l.pieceSegments i = some segs

/-- There is a file; the files and the whole pieces over them end below `2^64`; and there are
fewer pieces than `2^32` and no more than hashes. -/
structure Bounded (info : Info) : Prop where
  files : info.files ≠ []
  size : info.size < 18446744073709551616
  pieces : info.fullCount * info.pieceLength.toNat < 18446744073709551616
  count : info.fullCount < 4294967296
  hashes : info.fullCount ≤ info.pieces.length

theorem toNat_divCeil_size {info : Info} (hpl : 0 < info.pieceLength.toNat) {n : UInt64}
    (hn : n.toNat = info.size) :
    (Checked.divCeil n info.pieceLength).toNat = info.fullCount := by
  rw [Checked.toNat_divCeil hpl, hn, fullCount]

theorem pieceLength_ne_zero {info : Info} (hpl : 0 < info.pieceLength.toNat) :
    info.pieceLength ≠ 0 := by
  intro h
  rw [h] at hpl
  exact Nat.lt_irrefl 0 hpl

/-- The count is what the lengths give, or the number of hashes where that is smaller. -/
theorem pieceCount_spec {info : Info} (hpl : 0 < info.pieceLength.toNat) {n : UInt32}
    (h : info.pieceCount = some n) : n.toNat = min info.fullCount info.pieces.length := by
  obtain ⟨size, hsize, h⟩ := Option.bind_eq_some_iff.mp h
  have hfull := toNat_divCeil_size hpl (totalLength_eq_some.mp hsize)
  have hlt := (Checked.divCeil size info.pieceLength).toNat_lt
  dsimp only at h
  rw [if_neg (pieceLength_ne_zero hpl), hfull] at h
  rw [hfull] at hlt
  have hcast := Checked.toU32_eq_some.mp h
  split at hcast
  · rename_i hfew
    rw [UInt64.toNat_ofNat', Nat.mod_eq_of_lt (by omega)] at hcast
    omega
  · rw [hfull] at hcast
    omega

theorem exists_pieceCount {info : Info} (hpl : 0 < info.pieceLength.toNat) (hb : info.Bounded) :
    ∃ n, info.pieceCount = some n ∧ n.toNat = info.fullCount := by
  obtain ⟨size, hsize⟩ := Checked.exists_toNat hb.size
  have hfull := toNat_divCeil_size hpl hsize
  have hhashes := hb.hashes
  obtain ⟨n, hcast, hn⟩ := @Checked.exists_toU32 (Checked.divCeil size info.pieceLength)
    (by rw [hfull]; exact hb.count)
  refine ⟨n, ?_, hn.trans hfull⟩
  simp only [pieceCount, totalLength_eq_some.mpr hsize, Option.bind_eq_bind, Option.bind_some]
  rw [if_neg (pieceLength_ne_zero hpl), if_neg (by omega)]
  exact hcast

theorem exists_layoutCount {info : Info} (hpl : 0 < info.pieceLength.toNat) (hb : info.Bounded)
    {l : PieceLayout} (hlen : l.pieceLength = info.pieceLength) (hsize : l.size = info.size) :
    ∃ n, l.pieceCount = some n ∧ n.toNat = info.fullCount := by
  obtain ⟨size, hs⟩ := Checked.exists_toNat hb.size
  have hfull := toNat_divCeil_size hpl hs
  obtain ⟨n, hcast, hn⟩ := @Checked.exists_toU32 (Checked.divCeil size info.pieceLength)
    (by rw [hfull]; exact hb.count)
  refine ⟨n, ?_, hn.trans hfull⟩
  simp only [PieceLayout.pieceCount, PieceLayout.totalLength_eq_some.mpr (hs.trans hsize.symm),
    Option.bind_eq_bind, Option.bind_some]
  rw [hlen, if_neg (pieceLength_ne_zero hpl)]
  exact hcast

/-- The pieces below the count start inside the files, and end with the last whole piece. -/
theorem piece_bounds {info : Info} (hpl : 0 < info.pieceLength.toNat) {i : Nat}
    (hi : i < info.fullCount) :
    i * info.pieceLength.toNat < info.size ∧
      i * info.pieceLength.toNat + info.pieceLength.toNat ≤
        info.fullCount * info.pieceLength.toNat := by
  refine ⟨(Checked.lt_ceilDiv_iff hpl).mp hi, ?_⟩
  rw [← Nat.succ_mul]
  exact Nat.mul_le_mul_right _ hi

theorem layoutSafe_of_bounded {info : Info} (hpl : 0 < info.pieceLength.toNat)
    (hb : info.Bounded) : info.LayoutSafe := by
  obtain ⟨size, hsize⟩ := Checked.exists_toNat hb.size
  obtain ⟨l, hl, hlen, hlsize, hplaced⟩ := PieceLayout.exists_ofInfo hb.size
  have hzero : (0 : UInt64).toNat + info.size < 18446744073709551616 := by
    rw [UInt64.toNat_zero, Nat.zero_add]
    exact hb.size
  have hpieces := hb.pieces
  have hsegs i (hi : i.toNat < info.fullCount) : ∃ segs, info.pieceSegments i = some segs := by
    obtain ⟨hstart, hend⟩ := piece_bounds hpl hi
    rw [PieceLayout.pieceSegments_ofInfo hl i]
    exact PieceLayout.exists_pieceSegments hplaced (hlsize ▸ hb.size)
      (hlen ▸ hlsize ▸ Nat.le_of_lt hstart) (hlen ▸ Nat.lt_of_le_of_lt hend hpieces)
  refine ⟨⟨size, totalLength_eq_some.mpr hsize⟩, exists_offsetsFrom hzero, fun offset => ?_,
    exists_pieceCount hpl hb, fun i hi => ?_, fun i hi => ?_,
    ⟨l, hl, ⟨size, PieceLayout.totalLength_eq_some.mpr (hsize.trans hlsize.symm)⟩,
      exists_layoutCount hpl hb hlen hlsize, fun i hi => ⟨?_, ?_⟩⟩⟩
  · exact exists_locateFrom (fun h => hb.files (List.eq_nil_of_length_eq_zero h))
      (Nat.zero_le _) hzero
  · obtain ⟨hstart, hend⟩ := piece_bounds hpl hi
    rw [pieceLen, totalLength_eq_some.mpr hsize]
    exact exists_pieceLenIn (by omega)
  · exact hsegs i hi
  · obtain ⟨hstart, hend⟩ := piece_bounds hpl hi
    rw [PieceLayout.pieceLen, PieceLayout.totalLength_eq_some.mpr (hsize.trans hlsize.symm)]
    rw [← hlen] at hstart hend
    exact exists_pieceLenIn (by omega)
  · exact (PieceLayout.pieceSegments_ofInfo hl i).symm ▸ hsegs i hi

theorem bounded_of_layoutSafe {info : Info} (hpl : 0 < info.pieceLength.toNat)
    (hs : info.LayoutSafe) : info.Bounded := by
  obtain ⟨size, hsize⟩ := hs.totalLength
  have hlt := size.toNat_lt
  have hcount : info.fullCount < 4294967296 ∧ info.fullCount ≤ info.pieces.length := by
    obtain ⟨n, hn, hfull⟩ := hs.pieceCount
    have := pieceCount_spec hpl hn
    have := n.toNat_lt
    omega
  rw [totalLength_eq_some.mp hsize] at hlt
  refine ⟨?_, hlt, ?_, hcount.1, hcount.2⟩
  · intro hnil
    obtain ⟨r, hr⟩ := hs.locate 0
    rw [locate, hnil] at hr
    cases hr
  · -- the end of the last piece is computed without overflow
    by_cases hzero : info.fullCount = 0
    · rw [hzero, Nat.zero_mul]
      exact Nat.zero_lt_succ _
    · have hlast : (UInt32.ofNat (info.fullCount - 1)).toNat = info.fullCount - 1 := by
        rw [UInt32.toNat_ofNat']
        exact Nat.mod_eq_of_lt (by omega)
      obtain ⟨segs, hsegs⟩ := hs.pieceSegments (UInt32.ofNat (info.fullCount - 1)) (by omega)
      obtain ⟨ps, hmul, h⟩ := Option.bind_eq_some_iff.mp hsegs
      obtain ⟨full, hadd, -⟩ := Option.bind_eq_some_iff.mp h
      have hps := Checked.mul_eq_some.mp hmul
      have hfull := Checked.add_eq_some.mp hadd
      have := full.toNat_lt
      have hsucc : info.fullCount * info.pieceLength.toNat =
          (info.fullCount - 1) * info.pieceLength.toNat + info.pieceLength.toNat := by
        rw [← Nat.succ_mul]
        exact congrArg (· * _) (by omega)
      replace hps : ps.toNat = (UInt32.ofNat (info.fullCount - 1)).toNat * _ := hps
      rw [hlast] at hps
      omega

/-! ## What the parsers accept -/

theorem int64_pos {n : Int64} (h : 0 < n.toInt) : 0 < n.toUInt64.toNat := by
  by_cases hzero : n.toUInt64.toNat = 0
  · obtain rfl : n = 0 := congrArg Int64.ofUInt64 (UInt64.toNat_inj.mp hzero)
    exact absurd h (by decide)
  · omega

/-- `parse_info` requires a positive piece length. -/
theorem parseInfo_pieceLength {decodeText : List UInt8 → String} {v : Value} {info : Info}
    (h : parseInfo decodeText v = .ok info) : 0 < info.pieceLength.toNat := by
  obtain ⟨dict, -, h⟩ := except_bind_ok.mp h
  obtain ⟨rawName, -, h⟩ := except_bind_ok.mp h
  obtain ⟨n, hn, h⟩ := except_bind_ok.mp h
  obtain ⟨piecesRaw, -, h⟩ := except_bind_ok.mp h
  obtain ⟨-, hpos⟩ := Option.filter_eq_some_iff.mp (okOr_ok.mp hn)
  split at h
  · cases h
  · obtain ⟨files, -, h⟩ := except_bind_ok.mp h
    obtain rfl := Except.ok.inj h
    exact int64_pos (of_decide_eq_true hpos)

section
variable {Hash : Type} {sha1 : List UInt8 → Hash} {decodeText : List UInt8 → String}

theorem parseInfoBytes_ok {s : List UInt8} {m : TorrentMeta Hash}
    (h : parseInfoBytes sha1 decodeText s = .ok m) : ∃ v, parseInfo decodeText v = .ok m.info := by
  obtain ⟨⟨top, consumed⟩, -, h⟩ := except_bind_ok.mp h
  dsimp only at h
  split at h
  · cases h
  · obtain ⟨info, hinfo, h⟩ := except_bind_ok.mp h
    obtain rfl := Except.ok.inj h
    exact ⟨top, hinfo⟩

/-- The piece length of an accepted torrent is positive. -/
theorem pieceLength_pos {s : List UInt8} {m : TorrentMeta Hash}
    (h : parseTorrent sha1 decodeText s = .ok m ∨ parseInfoBytes sha1 decodeText s = .ok m) :
    0 < m.info.pieceLength.toNat := by
  cases h with
  | inl h =>
    obtain ⟨_, _, _, v, -, -, -, hinfo, -⟩ := parseTorrent_ok sha1 decodeText h
    exact parseInfo_pieceLength hinfo
  | inr h =>
    obtain ⟨v, hinfo⟩ := parseInfoBytes_ok h
    exact parseInfo_pieceLength hinfo

/-- **When layouts are safe.**  The arithmetic of the layout of an accepted torrent is exact if
and only if the torrent is bounded, which no parser checks. -/
theorem layoutSafe_iff {s : List UInt8} {m : TorrentMeta Hash}
    (h : parseTorrent sha1 decodeText s = .ok m ∨ parseInfoBytes sha1 decodeText s = .ok m) :
    m.info.LayoutSafe ↔ m.info.Bounded :=
  ⟨bounded_of_layoutSafe (pieceLength_pos h), layoutSafe_of_bounded (pieceLength_pos h)⟩

end

/-- The text of bytes below 128. -/
def asciiText (b : List UInt8) : String := String.ofList (b.map fun c => Char.ofNat c.toNat)

/-- `d6:lengthi3e4:name1:a12:piece lengthi2e6:pieces40:…e`, with 40 zero bytes for the hashes. -/
def threeBytes : List UInt8 :=
  [100, 54, 58, 108, 101, 110, 103, 116, 104, 105, 51, 101, 52, 58, 110, 97, 109, 101, 49, 58, 97,
    49, 50, 58, 112, 105, 101, 99, 101, 32, 108, 101, 110, 103, 116, 104, 105, 50, 101, 54, 58, 112,
    105, 101, 99, 101, 115, 52, 48, 58] ++ List.replicate 40 0 ++ [101]

theorem threeBytes_layoutSafe_iff :
    ∃ m : TorrentMeta Unit, parseInfoBytes (fun _ => ()) asciiText threeBytes = .ok m ∧
      m.info.fullCount = 2 ∧ (m.info.LayoutSafe ↔ m.info.Bounded) :=
  have hm : ∃ m : TorrentMeta Unit, parseInfoBytes (fun _ => ()) asciiText threeBytes = .ok m ∧
      m.info.fullCount = 2 := ⟨_, rfl, rfl⟩
  hm.elim fun m h => ⟨m, h.1, h.2, layoutSafe_iff (.inr h.1)⟩

/-- `d5:filesle4:name1:a12:piece lengthi1e6:pieces0:e`: a torrent of no files. -/
def noFiles : List UInt8 :=
  [100, 53, 58, 102, 105, 108, 101, 115, 108, 101, 52, 58, 110, 97, 109, 101, 49, 58, 97, 49, 50,
    58, 112, 105, 101, 99, 101, 32, 108, 101, 110, 103, 116, 104, 105, 49, 101, 54, 58, 112, 105,
    101, 99, 101, 115, 48, 58, 101]

/-- The torrent of no files is accepted, and `locate` then takes one from zero. -/
theorem noFiles_not_layoutSafe :
    ¬ ∀ m : TorrentMeta Unit, parseInfoBytes (fun _ => ()) asciiText noFiles = .ok m →
      m.info.LayoutSafe := by
  intro h
  have hm : ∃ m : TorrentMeta Unit, parseInfoBytes (fun _ => ()) asciiText noFiles = .ok m ∧
      m.info.locate 0 = none := ⟨_, rfl, rfl⟩
  obtain ⟨m, hm, hnone⟩ := hm
  obtain ⟨r, hr⟩ := (h m hm).locate 0
  rw [hnone] at hr
  cases hr

end Bencode.Info

end XferRust
