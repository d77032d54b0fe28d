import XferRust.Storage.PieceTiling

/-! # The bytes of each file

The cursor of `files_done_bytes` against the segments of the pieces that are done.  Both count each
byte of a file whose piece is done, once; they differ where there are more pieces than `u32` counts,
since the loop then looks at the bit of another piece.
-/
namespace XferRust.Storage.PieceLayout
open Tiling (total)
open Counting (tally)

/-- The numbers of the pieces, as far as `u32` goes. -/
def pieceNumbers (l : PieceLayout) : List UInt32 :=
  (List.range (min (Checked.ceilDiv l.size l.pieceLength.toNat) 4294967296)).map UInt32.ofNat

/-- What `files_done_bytes` should give: of each file, the bytes in the segments of the pieces that
are done. -/
def doneBySegments (l : PieceLayout) (have_ : UInt32 → Bool) : Option (List Nat) :=
  (l.segmentsOf (l.pieceNumbers.filter have_)).map fun segs =>
    (List.range l.files.length).map fun k => bytesIn k segs

theorem bytesIn_append (k : Nat) (xs ys : List Segment) :
    bytesIn k (xs ++ ys) = bytesIn k xs + bytesIn k ys := Tiling.total_append _ xs ys

theorem toNat_ofNat_of_lt {i : Nat} (h : i < 4294967296) : (UInt32.ofNat i).toNat = i := by
  rw [UInt32.toNat_ofNat', Nat.mod_eq_of_lt h]

variable {l : PieceLayout} {p : UInt32 → Bool}

/-- The bytes of a file in the segments of the pieces from number `a` on that are done. -/
theorem bytesIn_segmentsOf (hl : Placed 0 l.files) {n a : Nat} (hn : a + n ≤ 4294967296)
    {segs : List Segment}
    (h : l.segmentsOf (((List.range' a n).map UInt32.ofNat).filter p) = some segs) {k : Nat}
    {f : FileLayout} (hk : l.files[k]? = some f) :
    tally (l.doneBefore p (a * l.pieceLength.toNat)) f.offset.toNat f.length.toNat +
        bytesIn k segs =
      tally (l.doneBefore p ((a + n) * l.pieceLength.toNat)) f.offset.toNat f.length.toNat := by
  have hin : f.offset.toNat + f.length.toNat ≤ 0 + l.size := (hl.bounds hk).2
  rw [Nat.zero_add] at hin
  induction n generalizing a segs with
  | zero =>
    obtain rfl := Option.some.inj h
    rfl
  | succ n ih =>
    have ha : (UInt32.ofNat a).toNat = a := toNat_ofNat_of_lt (by omega)
    have hsucc := tally_doneBefore_succ (p := p) a hin
    rw [List.range'_succ, List.map_cons] at h
    rw [show a + (n + 1) = a + 1 + n by omega]
    by_cases hp : p (UInt32.ofNat a) = true
    · rw [List.filter_cons_of_pos hp] at h
      obtain ⟨first, hfirst, h⟩ := Option.bind_eq_some_iff.mp h
      obtain ⟨later, hlater, h⟩ := Option.bind_eq_some_iff.mp h
      obtain rfl := Option.some.inj h
      have hbytes := bytesIn_pieceSegments hfirst hk
      rw [ha] at hbytes
      rw [if_pos hp, ← hbytes] at hsucc
      rw [← ih (by omega) hlater, hsucc, bytesIn_append]
      omega
    · rw [List.filter_cons_of_neg hp] at h
      rw [if_neg hp] at hsucc
      have hrest := ih (by omega) h
      omega

/-- The end of each piece that is done fits its type. -/
def EndsFit (l : PieceLayout) (p : UInt32 → Bool) : Prop :=
  ∀ i, i < Checked.ceilDiv l.size l.pieceLength.toNat → p (UInt32.ofNat i) = true →
    i * l.pieceLength.toNat + l.pieceLength.toNat < 18446744073709551616

theorem countPieces_eq_none {pl size : Nat} {bounds : List (Nat × Nat)} {idxs : List Nat} {i : Nat}
    (hi : i ∈ idxs) (hp : p (UInt32.ofNat i) = true) (hover : 18446744073709551616 ≤ i * pl + pl)
    (fi : Nat) (out : List Nat) : countPieces pl size bounds p idxs fi out = none := by
  induction idxs generalizing fi out with
  | nil => cases hi
  | cons j idxs ih =>
    rw [countPieces]
    rcases List.mem_cons.mp hi with rfl | hi
    · rw [if_pos hp]
      exact if_pos hover
    · split
      · dsimp only
        split
        · rfl
        · exact ih hi _ _
      · exact ih hi _ _

theorem filesDoneBytes_eq_none {i : Nat} (hi : i < Checked.ceilDiv l.size l.pieceLength.toNat)
    (hp : p (UInt32.ofNat i) = true)
    (hover : 18446744073709551616 ≤ i * l.pieceLength.toNat + l.pieceLength.toNat) :
    l.filesDoneBytes p = none := by
  have hpl : l.pieceLength.toNat ≠ 0 := fun hzero => by
    rw [hzero, ceilDiv_zero] at hi
    exact Nat.not_lt_zero i hi
  have hsize : l.size ≠ 0 := fun hzero => by
    have := (piece_end hi).1
    omega
  have hbounds : l.bounds ≠ [] := fun hnil => by
    rw [size, List.map_eq_nil_iff.mp hnil] at hsize
    exact hsize rfl
  rw [filesDoneBytes]
  show (if _ ∨ _ ∨ l.bounds = [] then _ else _) = _
  rw [if_neg (by
    rintro (h | h | h)
    · exact hpl h
    · exact hsize h
    · exact hbounds h)]
  exact countPieces_eq_none (List.mem_range.mpr hi) hp hover _ _

theorem mem_pieceNumbers {i : UInt32} :
    i ∈ l.pieceNumbers ↔ i.toNat < Checked.ceilDiv l.size l.pieceLength.toNat := by
  have hlt := i.toNat_lt
  rw [pieceNumbers, List.mem_map]
  constructor
  · rintro ⟨k, hk, rfl⟩
    have hk := List.mem_range.mp hk
    rw [toNat_ofNat_of_lt (by omega)]
    omega
  · intro hi
    exact ⟨i.toNat, List.mem_range.mpr (by omega), UInt32.ofNat_toNat⟩

/-- The pieces that are done have their segments, if their ends fit. -/
theorem exists_doneSegments (hl : Placed 0 l.files) (hsize : l.size < 18446744073709551616)
    (h : ∀ i : UInt32, i.toNat < Checked.ceilDiv l.size l.pieceLength.toNat → p i = true →
      i.toNat * l.pieceLength.toNat + l.pieceLength.toNat < 18446744073709551616) :
    ∃ segs, l.segmentsOf (l.pieceNumbers.filter p) = some segs := by
  refine exists_segmentsOf fun i hi => ?_
  obtain ⟨hi, hp⟩ := List.mem_filter.mp hi
  have hi := mem_pieceNumbers.mp hi
  exact exists_pieceSegments hl hsize (Nat.le_of_lt (piece_end hi).1) (h i hi hp)

/-- By segments, the bytes of a file that are done in pieces that `u32` counts. -/
theorem doneBySegments_eq (hl : Placed 0 l.files) (hsize : l.size < 18446744073709551616)
    (h : l.EndsFit p) :
    l.doneBySegments p = some (l.bounds.map fun b =>
      tally (l.doneBefore p (min (Checked.ceilDiv l.size l.pieceLength.toNat) 4294967296 *
        l.pieceLength.toNat)) b.1 b.2) := by
  obtain ⟨segs, hsegs⟩ := exists_doneSegments hl hsize fun i hi hp => h i.toNat hi (by
    rw [UInt32.ofNat_toNat]
    exact hp)
  rw [doneBySegments, hsegs, Option.map_some]
  refine congrArg some (List.ext_getElem? fun k => ?_)
  rw [List.getElem?_map, List.getElem?_map, List.getElem?_map]
  cases hk : l.files[k]? with
  | none =>
    rw [List.getElem?_eq_none (by
      rw [List.length_range]
      exact List.getElem?_eq_none_iff.mp hk)]
    rfl
  | some f =>
    rw [List.getElem?_range (List.getElem?_eq_some_iff.mp hk).1]
    rw [pieceNumbers, List.range_eq_range'] at hsegs
    have hbytes := bytesIn_segmentsOf hl (by omega) hsegs hk
    rw [Nat.zero_mul, Nat.zero_add] at hbytes
    have hzero : tally (l.doneBefore p 0) f.offset.toNat f.length.toNat = 0 :=
      Counting.tally_eq_zero.mpr fun g _ _ => by
        rw [doneBefore, decide_eq_false (Nat.not_lt_zero g), Bool.false_and]
    rw [hzero, Nat.zero_add] at hbytes
    exact congrArg some hbytes

/-- No piece that `u32` does not count is taken for a piece that is done: the loop tests the bit of
the lower 32 bits of the number. -/
def NoneAliased (l : PieceLayout) (p : UInt32 → Bool) : Prop :=
  ∀ i, 4294967296 ≤ i → i < Checked.ceilDiv l.size l.pieceLength.toNat →
    p (UInt32.ofNat i) = false

/-- Each byte lies in a file. -/
theorem Placed.exists_file {lo : Nat} {files : List FileLayout} (h : Placed lo files) {g : Nat}
    (hlo : lo ≤ g) (hhi : g < lo + total (fun f => f.length.toNat) files) :
    ∃ (k : Nat) (f : FileLayout), files[k]? = some f ∧ f.offset.toNat ≤ g ∧
      g < f.offset.toNat + f.length.toNat := by
  induction files generalizing lo with
  | nil => exact absurd hhi (Nat.not_lt.mpr hlo)
  | cons f files ih =>
    obtain ⟨hoffset, hplaced⟩ := h
    rw [Tiling.total_cons] at hhi
    by_cases hg : g < lo + f.length.toNat
    · exact ⟨0, f, rfl, by omega, by omega⟩
    · obtain ⟨k, f', hk, hf'⟩ := ih hplaced (by omega) (by omega)
      exact ⟨k + 1, f', hk, hf'⟩

/-- Without an overflow both give a result, and it is the same if no piece is taken for another. -/
theorem filesDoneBytes_eq_iff (hl : Placed 0 l.files) (hsize : l.size < 18446744073709551616)
    (hpl : 0 < l.pieceLength.toNat) (hfit : l.EndsFit p) :
    l.filesDoneBytes p = l.doneBySegments p ↔ l.NoneAliased p := by
  have hend : l.size ≤ Checked.ceilDiv l.size l.pieceLength.toNat * l.pieceLength.toNat :=
    Nat.le_of_not_lt (mt (Checked.lt_ceilDiv_iff hpl).mpr (Nat.lt_irrefl _))
  rw [filesDoneBytes_of_fit hl hpl hfit, doneBySegments_eq hl hsize hfit, Option.some.injEq]
  constructor
  · intro heq i hi hcount
    refine Bool.eq_false_iff.mpr fun hp => ?_
    -- the first byte of the piece counts for its file, but not by segments
    have hstart := (piece_end hcount).1
    obtain ⟨k, f, hk, hlo, hhi⟩ := hl.exists_file (Nat.zero_le (i * l.pieceLength.toNat))
      (show _ < 0 + l.size by omega)
    have hsame := congrArg (fun xs => xs[k]?) heq
    simp only [List.getElem?_map, hk, Option.map_some] at hsame
    refine absurd (Option.some.inj hsame)
      (Nat.ne_of_gt (Counting.tally_lt_tally (fun g _ _ hg => ?_) hlo hhi ?_ ?_))
    · rw [doneBefore, Bool.and_eq_true] at hg
      exact hg.2
    · have hle := Nat.mul_le_mul_right l.pieceLength.toNat hi
      rw [doneBefore, Nat.min_eq_right (by omega), decide_eq_false (by omega), Bool.false_and]
    · rw [doneByte, Nat.mul_div_cancel _ hpl]
      exact hp
  · intro hnone
    refine List.map_congr_left fun b hb => Counting.tally_congr fun g _ hg => ?_
    have hin := mem_bounds_le hl hb
    by_cases hmany : Checked.ceilDiv l.size l.pieceLength.toNat ≤ 4294967296
    · rw [doneBefore, Nat.min_eq_left hmany, decide_eq_true (by omega), Bool.true_and]
    · rw [Nat.min_eq_right (by omega)]
      by_cases hlt : g < 4294967296 * l.pieceLength.toNat
      · rw [doneBefore, decide_eq_true hlt, Bool.true_and]
      · rw [doneBefore, decide_eq_false hlt, Bool.false_and, doneByte]
        refine hnone _ ((Nat.le_div_iff_mul_le hpl).mpr (by omega)) ?_
        rw [Checked.lt_ceilDiv_iff hpl]
        have := Nat.div_mul_le_self g l.pieceLength.toNat
        omega

theorem filesDoneBytes_iff_of_placed (p : UInt32 → Bool) (hl : Placed 0 l.files)
    (hsize : l.size < 18446744073709551616) :
    (∃ out, l.filesDoneBytes p = some out ∧ l.doneBySegments p = some out) ↔
      l.EndsFit p ∧ l.NoneAliased p := by
  by_cases hpl : l.pieceLength.toNat = 0
  · have hnone : Checked.ceilDiv l.size l.pieceLength.toNat = 0 := by
      rw [hpl]
      exact ceilDiv_zero _
    have hfit : l.EndsFit p := fun i hi _ => absurd (hnone ▸ hi) (Nat.not_lt_zero i)
    refine iff_of_true ⟨_, ?_, doneBySegments_eq hl hsize hfit⟩
      ⟨hfit, fun i _ hi => absurd (hnone ▸ hi) (Nat.not_lt_zero i)⟩
    rw [hnone, Nat.zero_min, Nat.zero_mul, filesDoneBytes]
    refine (if_pos (.inl hpl)).trans (congrArg some (List.map_congr_left fun b _ =>
      (Counting.tally_eq_zero.mpr fun g _ _ => ?_).symm))
    rw [doneBefore, decide_eq_false (Nat.not_lt_zero g), Bool.false_and]
  · have hiff := fun hfit => filesDoneBytes_eq_iff (p := p) hl hsize (Nat.pos_of_ne_zero hpl) hfit
    constructor
    · rintro ⟨out, hcursor, hsegments⟩
      have hfit : l.EndsFit p := fun i hi hp => Nat.lt_of_not_le fun hover => by
        rw [filesDoneBytes_eq_none hi hp hover] at hcursor
        cases hcursor
      exact ⟨hfit, (hiff hfit).mp (hcursor.trans hsegments.symm)⟩
    · rintro ⟨hfit, hnone⟩
      exact ⟨_, ((hiff hfit).mpr hnone).trans (doneBySegments_eq hl hsize hfit),
        doneBySegments_eq hl hsize hfit⟩

/-- **Per file, the cursor counts what the segments give** if and only if the ends of the pieces
that are done fit and no piece is taken for another one. -/
theorem filesDoneBytes_iff {pieceLength : UInt64} {files : List (List String × UInt64)}
    {l : PieceLayout} (h : PieceLayout.new pieceLength files = some l) (have_ : UInt32 → Bool) :
    (∃ out, l.filesDoneBytes have_ = some out ∧ l.doneBySegments have_ = some out) ↔
      l.EndsFit have_ ∧ l.NoneAliased have_ := by
  obtain ⟨ls, hplace, hnew⟩ := Option.bind_eq_some_iff.mp h
  obtain ⟨hl, -, hsize⟩ := place_spec hplace
  obtain rfl := Option.some.inj hnew
  rw [UInt64.toNat_zero, Nat.zero_add] at hsize
  exact filesDoneBytes_iff_of_placed have_ hl hsize

/-- A piece over three files, one of them empty, and a second piece that is shorter. -/
def threeFiles : List (List String × UInt64) := [(["a"], 3), (["b"], 0), (["c"], 3)]

theorem threeFiles_filesDoneBytes :
    ∃ l, PieceLayout.new 4 threeFiles = some l ∧
      l.filesDoneBytes (fun i => i = 0) = some [3, 0, 1] ∧
      ((∃ out, l.filesDoneBytes (fun i => i = 0) = some out ∧
          l.doneBySegments (fun i => i = 0) = some out) ↔
        l.EndsFit (fun i => i = 0) ∧ l.NoneAliased (fun i => i = 0)) := by
  have hl : ∃ l, PieceLayout.new 4 threeFiles = some l ∧
      l.filesDoneBytes (fun i => i = 0) = some [3, 0, 1] := ⟨_, rfl, rfl⟩
  obtain ⟨l, hnew, hcursor⟩ := hl
  exact ⟨l, hnew, hcursor, filesDoneBytes_iff hnew _⟩

/-- Of the layout of one byte more than `2^32` in pieces of one byte, the last piece is taken for
the first. -/
theorem manyPieces_miscounted :
    ∃ l, PieceLayout.new 1 [(["a"], 4294967297)] = some l ∧
      ¬∃ out, l.filesDoneBytes (fun i => i = 0) = some out ∧
        l.doneBySegments (fun i => i = 0) = some out := by
  have hl : ∃ l, PieceLayout.new 1 [(["a"], 4294967297)] = some l ∧ l.size = 4294967297 ∧
      l.pieceLength = 1 ∧ Placed 0 l.files := ⟨_, rfl, rfl, rfl, rfl, trivial⟩
  obtain ⟨l, hnew, hsize, hlength, hplaced⟩ := hl
  refine ⟨l, hnew, fun h => ?_⟩
  have hnone := ((filesDoneBytes_iff_of_placed _ hplaced (by omega)).mp h).2 4294967296
    (Nat.le_refl _) (by rw [hsize, hlength]; decide)
  exact absurd hnone (by decide)

end XferRust.Storage.PieceLayout
