import XferRust.Storage.Completion

/-! # The segments of all pieces

Taken one piece after the other, the segments cut each file from its first byte to its last, and
those of `Info` are the same.  All of it holds where the pieces fit their types; a layout with more
pieces than `u32` counts, or whose last piece nominally ends behind `u64`, has fewer segments or
none.
-/
namespace XferRust
open Tiling (total Span Tiles Holds)
open Counting (tally)

/-- The bytes of its file that a segment takes. -/
def Segment.span (s : Segment) : Span := ⟨s.offset.toNat, s.offset.toNat + s.len.toNat⟩

/-- The first segment lies before the second, in an earlier file or in the same one. -/
def Segment.Before (s t : Segment) : Prop :=
  s.file < t.file ∨ s.file = t.file ∧ s.offset.toNat + s.len.toNat ≤ t.offset.toNat

/-- The bytes of a file in the segments. -/
def bytesIn (k : Nat) (segs : List Segment) : Nat :=
  total (fun s => if s.file = k then s.len.toNat else 0) segs

/-- The spans of a file that the segments take. -/
def spansIn (k : Nat) (segs : List Segment) : List Span :=
  (segs.filter fun s => s.file = k).map Segment.span

namespace Storage.PieceLayout
open Bencode (Info FileEntry)

/-- The segments of the pieces of a list, one piece after the other. -/
def segmentsOf (l : PieceLayout) : List UInt32 → Option (List Segment)
  | [] => some []
  | i :: rest => do
    let first ← l.pieceSegments i
    let later ← segmentsOf l rest
    some (first ++ later)

/-! ## The segments of a piece -/

/-- The byte lies between the two positions. -/
abbrev between (lo hi g : Nat) : Bool := decide (lo ≤ g) && decide (g < hi)

variable {pe ps : UInt64}

variable {fi k : Nat}

variable {segs : List Segment} {files : List FileLayout} {s : Segment}

theorem file_le_of_mem (h : segmentsFrom ps pe fi files = some segs) (hs : s ∈ segs) :
    fi ≤ s.file := by
  obtain ⟨k, f, -, hfile, -⟩ := (mem_segmentsFrom h).mp hs
  omega

theorem bytesIn_eq_zero (h : ∀ s ∈ segs, s.file ≠ k) : bytesIn k segs = 0 :=
  Tiling.total_eq_zero.mpr fun s hs => if_neg (h s hs)

variable {f : FileLayout}

/-- The segments of a span take, of each file, the bytes that lie in the span. -/
theorem bytesIn_segmentsFrom (h : segmentsFrom ps pe fi files = some segs)
    (hk : files[k]? = some f) :
    bytesIn (fi + k) segs =
      tally (between ps.toNat pe.toNat) f.offset.toNat f.length.toNat := by
  induction files generalizing fi segs k with
  | nil => cases hk
  | cons g files ih =>
    obtain ⟨rest, hrest, hcut⟩ := segmentsFrom_cons h
    cases k with
    | zero =>
      obtain rfl := Option.some.inj hk
      have hnone : bytesIn (fi + 0) rest = 0 := bytesIn_eq_zero fun s hs => by
        have := file_le_of_mem hrest hs
        omega
      rw [Counting.tally_between]
      rcases hcut with ⟨rfl, hout⟩ | ⟨off, len, rfl, hcut⟩
      · omega
      · have hfirst : bytesIn (fi + 0) (⟨fi, off, len⟩ :: rest) =
            len.toNat + bytesIn (fi + 0) rest := by
          rw [bytesIn, Tiling.total_cons, if_pos (Nat.add_zero fi).symm]
          rfl
        omega
    | succ k =>
      rw [← Nat.add_assoc, Nat.add_right_comm, ← ih hrest hk]
      rcases hcut with ⟨rfl, -⟩ | ⟨off, len, rfl, -⟩
      · rfl
      · rw [bytesIn, Tiling.total_cons, if_neg (show fi ≠ fi + 1 + k by omega), Nat.zero_add]
        rfl

/-- The segments of a span take all bytes of the files that lie in the span. -/
theorem total_segmentsFrom {lo : Nat} (hplaced : Placed lo files)
    (h : segmentsFrom ps pe fi files = some segs) :
    total (fun s => s.len.toNat) segs =
      tally (between ps.toNat pe.toNat) lo (total (fun f => f.length.toNat) files) := by
  induction files generalizing fi segs lo with
  | nil =>
    obtain rfl := Option.some.inj h
    rfl
  | cons f files ih =>
    obtain ⟨hoffset, hplaced⟩ := hplaced
    obtain ⟨rest, hrest, hcut⟩ := segmentsFrom_cons h
    rw [Tiling.total_cons, Counting.tally_add, ← ih hplaced hrest, Counting.tally_between]
    rcases hcut with ⟨rfl, hout⟩ | ⟨off, len, rfl, hcut⟩
    · omega
    · rw [Tiling.total_cons]
      dsimp only
      omega

/-- The segments of a span lie one before the other. -/
theorem pairwise_segmentsFrom (h : segmentsFrom ps pe fi files = some segs) :
    segs.Pairwise Segment.Before := by
  induction files generalizing fi segs with
  | nil =>
    obtain rfl := Option.some.inj h
    exact .nil
  | cons f files ih =>
    obtain ⟨rest, hrest, ⟨rfl, -⟩ | ⟨off, len, rfl, -⟩⟩ := segmentsFrom_cons h
    · exact ih hrest
    · exact List.pairwise_cons.mpr
        ⟨fun s hs => .inl (file_le_of_mem hrest hs), ih hrest⟩

variable {l : PieceLayout} {i : UInt32}

/-- Of each file, a piece's segments take the bytes of the piece. -/
theorem bytesIn_pieceSegments (h : l.pieceSegments i = some segs) (hk : l.files[k]? = some f) :
    bytesIn k segs =
      min (min (i.toNat * l.pieceLength.toNat + l.pieceLength.toNat) l.size)
          (f.offset.toNat + f.length.toNat) -
        max (i.toNat * l.pieceLength.toNat) f.offset.toNat := by
  obtain ⟨ps, pe, hsegs, hps, hpe, -⟩ := pieceSegments_eq_some h
  have hbytes := bytesIn_segmentsFrom hsegs hk
  rwa [Nat.zero_add, Counting.tally_between, hps, hpe] at hbytes

/-- A piece's segments come to the length of the piece. -/
theorem total_pieceSegments (hl : Placed 0 l.files) (h : l.pieceSegments i = some segs) :
    total (fun s => s.len.toNat) segs = l.pieceSize i := by
  obtain ⟨ps, pe, hsegs, hps, hpe, -⟩ := pieceSegments_eq_some h
  rw [total_segmentsFrom hl hsegs, Counting.tally_between, hps, hpe]
  unfold pieceSize
  show min _ (0 + l.size) - _ = _
  omega

/-- A segment of a piece is a cut with a file. -/
theorem mem_pieceSegments (h : l.pieceSegments i = some segs) (hs : s ∈ segs) :
    ∃ f, l.files[s.file]? = some f ∧
      i.toNat * l.pieceLength.toNat ≤ f.offset.toNat + s.offset.toNat ∧
      i.toNat * l.pieceLength.toNat < f.offset.toNat + f.length.toNat ∧
      f.offset.toNat < i.toNat * l.pieceLength.toNat + l.pieceLength.toNat ∧
      f.offset.toNat + s.offset.toNat + s.len.toNat ≤
        i.toNat * l.pieceLength.toNat + l.pieceLength.toNat ∧
      s.offset.toNat + s.len.toNat ≤ f.length.toNat := by
  obtain ⟨ps, pe, hsegs, hps, hpe, -⟩ := pieceSegments_eq_some h
  obtain ⟨k, f, hk, hfile, hlo, hhi, hoffset, hto⟩ := (mem_segmentsFrom hsegs).mp hs
  rw [Nat.zero_add] at hfile
  rw [hps] at hhi hoffset
  rw [hpe] at hlo hto
  exact ⟨f, hfile ▸ hk, by omega, hhi, by omega, by omega, by omega⟩

/-- Each byte of a file that lies in a piece lies in a segment of it. -/
theorem exists_segment (hl : Placed 0 l.files) (h : l.pieceSegments i = some segs)
    (hk : l.files[k]? = some f) {p : Nat} (hp : p < f.length.toNat)
    (hlo : i.toNat * l.pieceLength.toNat ≤ f.offset.toNat + p)
    (hhi : f.offset.toNat + p < i.toNat * l.pieceLength.toNat + l.pieceLength.toNat) :
    ∃ s ∈ segs, s.file = k ∧ s.offset.toNat ≤ p ∧ p < s.offset.toNat + s.len.toNat := by
  obtain ⟨ps, pe, hsegs, hps, hpe, -⟩ := pieceSegments_eq_some h
  have hin : f.offset.toNat + f.length.toNat ≤ 0 + l.size := (hl.bounds hk).2
  have hltf := f.offset.toNat_lt
  obtain ⟨off, hoff⟩ := @Checked.exists_toNat (max ps.toNat f.offset.toNat - f.offset.toNat)
    (by have := ps.toNat_lt; omega)
  obtain ⟨len, hlen⟩ := @Checked.exists_toNat
    (min pe.toNat (f.offset.toNat + f.length.toNat) - max ps.toNat f.offset.toNat)
    (by have := pe.toNat_lt; omega)
  refine ⟨⟨k, off, len⟩, (mem_segmentsFrom hsegs).mpr
    ⟨k, f, hk, (Nat.zero_add k).symm, by omega, by omega, ?_, ?_⟩, rfl, ?_, ?_⟩
  · show off.toNat + _ = _
    omega
  · show off.toNat + _ + len.toNat = _
    omega
  · show off.toNat ≤ p
    omega
  · show p < off.toNat + len.toNat
    omega

/-! ## The segments of all pieces -/

theorem mem_segmentsOf {idxs : List UInt32} (h : l.segmentsOf idxs = some segs) :
    s ∈ segs ↔ ∃ i ∈ idxs, ∃ part, l.pieceSegments i = some part ∧ s ∈ part := by
  induction idxs generalizing segs with
  | nil =>
    obtain rfl := Option.some.inj h
    exact ⟨nofun, fun ⟨i, hi, _⟩ => by cases hi⟩
  | cons i idxs ih =>
    obtain ⟨first, hfirst, h⟩ := Option.bind_eq_some_iff.mp h
    obtain ⟨later, hlater, h⟩ := Option.bind_eq_some_iff.mp h
    obtain rfl := Option.some.inj h
    rw [List.mem_append, ih hlater]
    constructor
    · rintro (hs | ⟨j, hj, hpart⟩)
      · exact ⟨i, List.mem_cons_self, first, hfirst, hs⟩
      · exact ⟨j, List.mem_cons_of_mem i hj, hpart⟩
    · rintro ⟨j, hj, part, hpart, hs⟩
      rcases List.mem_cons.mp hj with rfl | hj
      · obtain rfl := Option.some.inj (hfirst.symm.trans hpart)
        exact .inl hs
      · exact .inr ⟨j, hj, part, hpart, hs⟩

theorem exists_segmentsOf {idxs : List UInt32}
    (h : ∀ i ∈ idxs, ∃ part, l.pieceSegments i = some part) :
    ∃ segs, l.segmentsOf idxs = some segs := by
  induction idxs with
  | nil => exact ⟨[], rfl⟩
  | cons i idxs ih =>
    obtain ⟨first, hfirst⟩ := h i List.mem_cons_self
    obtain ⟨later, hlater⟩ := ih fun j hj => h j (List.mem_cons_of_mem i hj)
    refine ⟨first ++ later, ?_⟩
    rw [segmentsOf, hfirst, hlater]
    rfl

theorem Placed.apart {lo : Nat} (h : Placed lo files) {j : Nat} {g : FileLayout}
    (hj : files[j]? = some f) (hk : files[k]? = some g) (hjk : j < k) :
    f.offset.toNat + f.length.toNat ≤ g.offset.toNat := by
  induction files generalizing lo j k with
  | nil => cases hj
  | cons e files ih =>
    obtain ⟨hoffset, hplaced⟩ := h
    cases k with
    | zero => exact absurd hjk (Nat.not_lt_zero j)
    | succ k =>
      cases j with
      | zero =>
        obtain rfl := Option.some.inj hj
        have := (hplaced.bounds hk).1
        omega
      | succ j => exact ih hplaced hj hk (Nat.lt_of_succ_lt_succ hjk)

/-- The segments of a piece lie before those of a later one. -/
theorem before_of_lt (hl : Placed 0 l.files) {j : UInt32} (hij : i.toNat < j.toNat)
    {segs' : List Segment} (h : l.pieceSegments i = some segs)
    (h' : l.pieceSegments j = some segs') {t : Segment} (hs : s ∈ segs) (ht : t ∈ segs') :
    s.Before t := by
  obtain ⟨f, hf, -, -, hfpe, hspe, -⟩ := mem_pieceSegments h hs
  obtain ⟨g, hg, htps, hgps, -, -, -⟩ := mem_pieceSegments h' ht
  have hle := Nat.mul_le_mul_right l.pieceLength.toNat (show i.toNat + 1 ≤ j.toNat from hij)
  rw [Nat.succ_mul] at hle
  rcases Nat.lt_trichotomy s.file t.file with hlt | heq | hgt
  · exact .inl hlt
  · rw [heq] at hf
    obtain rfl := Option.some.inj (hf.symm.trans hg)
    exact .inr ⟨heq, by omega⟩
  · -- the later piece reaches behind a file that starts before it
    have := hl.apart hg hf hgt
    omega

theorem pairwise_segmentsOf (hl : Placed 0 l.files) {idxs : List UInt32}
    (hidxs : idxs.Pairwise fun i j => i.toNat < j.toNat) (h : l.segmentsOf idxs = some segs) :
    segs.Pairwise Segment.Before := by
  induction idxs generalizing segs with
  | nil =>
    obtain rfl := Option.some.inj h
    exact .nil
  | cons i idxs ih =>
    obtain ⟨hfirst, hrest⟩ := List.pairwise_cons.mp hidxs
    obtain ⟨first, hpart, h⟩ := Option.bind_eq_some_iff.mp h
    obtain ⟨later, hlater, h⟩ := Option.bind_eq_some_iff.mp h
    obtain rfl := Option.some.inj h
    obtain ⟨ps, pe, hsegs, -⟩ := pieceSegments_eq_some hpart
    refine List.pairwise_append.mpr ⟨pairwise_segmentsFrom hsegs, ih hrest hlater, ?_⟩
    intro s hs t ht
    obtain ⟨j, hj, part, hpart', ht⟩ := (mem_segmentsOf hlater).mp ht
    exact before_of_lt hl (hfirst j hj) hpart hpart' hs ht

theorem pairwise_indices (count : UInt32) :
    (indices count).Pairwise fun i j => i.toNat < j.toNat := by
  rw [indices, List.pairwise_map]
  refine List.Pairwise.imp_of_mem (fun {a b} ha hb hlt => ?_) (List.pairwise_lt_range)
  rwa [PieceMap.toNat_ofNat (List.mem_range.mp ha), PieceMap.toNat_ofNat (List.mem_range.mp hb)]

theorem pairwise_spansIn (h : segs.Pairwise Segment.Before) (k : Nat) :
    (spansIn k segs).Pairwise fun s t => s.hi ≤ t.lo := by
  rw [spansIn, List.pairwise_map]
  refine (h.filter _).imp_of_mem fun {s t} hs ht hbefore => ?_
  have hfs := of_decide_eq_true (List.mem_filter.mp hs).2
  have hft := of_decide_eq_true (List.mem_filter.mp ht).2
  rcases hbefore with hlt | ⟨-, hle⟩
  · omega
  · exact hle

variable {info : Info}

/-! ## Tilings -/

/-- The segments tile the torrent: each piece has its segments, those that `Info` gives, of the
length of the piece; one lies before the other; they lie in the files; and they take each byte of a
file once. -/
structure Tiled (info : Info) (l : PieceLayout) (count : UInt32) (segs : List Segment) : Prop where
  pieces : ∀ i, i < count → ∃ part n, l.pieceSegments i = some part ∧
    info.pieceSegments i = some part ∧ l.pieceLen i = some n ∧
    total (fun s => s.len.toNat) part = n.toNat
  order : segs.Pairwise Segment.Before
  inside : ∀ s ∈ segs, ∃ f, l.files[s.file]? = some f ∧
    s.offset.toNat + s.len.toNat ≤ f.length.toNat
  once : ∀ k f, l.files[k]? = some f → Tiles 0 f.length.toNat (spansIn k segs)

/-- There is a layout, and the segments of all its pieces tile the torrent. -/
def PiecesTile (info : Info) : Prop :=
  ∃ l count segs, ofInfo info = some l ∧ l.pieceCount = some count ∧
    l.segmentsOf (indices count) = some segs ∧ Tiled info l count segs

/-- The pieces fit their types: the files end below `2^64`, and so does the last piece with its
whole length; there are fewer pieces than `2^32`; and if pieces have no length, nor have files. -/
structure Fitting (info : Info) : Prop where
  size : info.size < 18446744073709551616
  pieces : info.fullCount * info.pieceLength.toNat < 18446744073709551616
  count : info.fullCount < 4294967296
  length : info.pieceLength.toNat = 0 → info.size = 0

theorem ceilDiv_zero (n : Nat) : Checked.ceilDiv n 0 = 0 := by
  unfold Checked.ceilDiv
  exact Nat.div_zero _

/-- The count, where it is not truncated. -/
theorem toNat_pieceCount {count : UInt32} (h : l.pieceCount = some count) :
    count.toNat = Checked.ceilDiv l.size l.pieceLength.toNat := by
  obtain ⟨n, htotal, h⟩ := Option.bind_eq_some_iff.mp h
  have hn := totalLength_eq_some.mp htotal
  split at h
  · rename_i hzero
    obtain rfl := Option.some.inj h
    rw [hzero]
    exact (ceilDiv_zero _).symm
  · rename_i hne
    rw [Checked.toU32_eq_some.mp h, Checked.toNat_divCeil, hn]
    refine Nat.pos_of_ne_zero fun hzero => hne (UInt64.toNat_inj.mp ?_)
    rw [hzero]
    rfl

theorem exists_pieceCount (hsize : l.size < 18446744073709551616)
    (hcount : Checked.ceilDiv l.size l.pieceLength.toNat < 4294967296) :
    ∃ count, l.pieceCount = some count := by
  obtain ⟨n, hn⟩ := Checked.exists_toNat hsize
  rw [PieceLayout.pieceCount, totalLength_eq_some.mpr hn, Option.bind_eq_bind, Option.bind_some]
  split
  · exact ⟨0, rfl⟩
  · rename_i hne
    have hpl : 0 < l.pieceLength.toNat := Nat.pos_of_ne_zero fun hzero =>
      hne (UInt64.toNat_inj.mp (by rw [hzero]; rfl))
    obtain ⟨count, hcast, -⟩ := @Checked.exists_toU32 (Checked.divCeil n l.pieceLength)
      (by rw [Checked.toNat_divCeil hpl, hn]; exact hcount)
    exact ⟨count, hcast⟩

/-- The piece's whole length ends no later than that of the last one. -/
theorem piece_end {size pl i : Nat} (hi : i < Checked.ceilDiv size pl) :
    i * pl < size ∧ i * pl + pl ≤ Checked.ceilDiv size pl * pl := by
  have hpl : 0 < pl := Nat.pos_of_ne_zero fun hzero => by
    rw [hzero, ceilDiv_zero] at hi
    exact Nat.not_lt_zero i hi
  refine ⟨(Checked.lt_ceilDiv_iff hpl).mp hi, ?_⟩
  rw [← Nat.succ_mul]
  exact Nat.mul_le_mul_right _ hi

theorem piecesTile_of_fitting (h : Fitting info) : PiecesTile info := by
  obtain ⟨l, hl, hlength, hsize, hplaced⟩ := exists_ofInfo h.size
  have hfull : Checked.ceilDiv l.size l.pieceLength.toNat = info.fullCount := by
    rw [hsize, hlength]
    rfl
  have hlsize : l.size < 18446744073709551616 := hsize ▸ h.size
  obtain ⟨count, hcount⟩ := exists_pieceCount hlsize (hfull ▸ h.count)
  have htoNat := toNat_pieceCount hcount
  have hbound : Checked.ceilDiv l.size l.pieceLength.toNat * l.pieceLength.toNat <
      18446744073709551616 := by
    rw [hfull, hlength]
    exact h.pieces
  -- each piece has its segments
  have hpiece : ∀ i, i < count → ∃ part, l.pieceSegments i = some part := fun i hi => by
    have hi := UInt32.lt_iff_toNat_lt.mp hi
    rw [htoNat] at hi
    obtain ⟨hstart, hend⟩ := piece_end hi
    exact PieceLayout.exists_pieceSegments hplaced hlsize (Nat.le_of_lt hstart) (by omega)
  obtain ⟨segs, hsegs⟩ := exists_segmentsOf fun i hi => hpiece i (mem_indices.mp hi)
  have horder := pairwise_segmentsOf hplaced (pairwise_indices count) hsegs
  refine ⟨l, count, segs, hl, hcount, hsegs, fun i hi => ?_, horder, fun s hs => ?_,
    fun k f hk => ?_⟩
  · obtain ⟨part, hpart⟩ := hpiece i hi
    have hi := UInt32.lt_iff_toNat_lt.mp hi
    rw [htoNat] at hi
    obtain ⟨hstart, hend⟩ := piece_end hi
    obtain ⟨size, htotal⟩ := Checked.exists_toNat hlsize
    obtain ⟨n, hn⟩ := @exists_pieceLenIn size l.pieceLength i (by omega)
    rw [← totalLength_eq_some.mpr htotal] at hn
    refine ⟨part, n, hpart, (pieceSegments_ofInfo hl i).trans hpart, hn, ?_⟩
    rw [total_pieceSegments hplaced hpart, pieceLen_eq_some (l := l) hn]
  · obtain ⟨i, -, part, hpart, hs⟩ := (mem_segmentsOf hsegs).mp hs
    obtain ⟨f, hf, -, -, -, -, hin⟩ := mem_pieceSegments hpart hs
    exact ⟨f, hf, hin⟩
  · refine Tiling.tiles_of_pairwise (pairwise_spansIn horder k) fun p => ⟨?_, ?_⟩
    · rintro ⟨span, hspan, hlo, hhi⟩
      obtain ⟨s, hs, rfl⟩ := List.mem_map.mp hspan
      obtain ⟨hs, hfile⟩ := List.mem_filter.mp hs
      obtain ⟨i, -, part, hpart, hs⟩ := (mem_segmentsOf hsegs).mp hs
      obtain ⟨g, hg, -, -, -, -, hin⟩ := mem_pieceSegments hpart hs
      rw [of_decide_eq_true hfile, hk] at hg
      obtain rfl := Option.some.inj hg
      exact ⟨Nat.zero_le p, Nat.lt_of_lt_of_le hhi hin⟩
    · rintro ⟨-, hp⟩
      have hin : f.offset.toNat + f.length.toNat ≤ 0 + l.size := (hplaced.bounds hk).2
      have hpl : 0 < l.pieceLength.toNat := Nat.pos_of_ne_zero fun hzero => by
        have := h.length (hlength ▸ hzero)
        omega
      -- the piece of the byte
      have hstart := Nat.div_mul_le_self (f.offset.toNat + p) l.pieceLength.toNat
      have hi : (f.offset.toNat + p) / l.pieceLength.toNat < count.toNat := by
        rw [htoNat, Checked.lt_ceilDiv_iff hpl]
        omega
      have hend := Nat.lt_div_mul_add hpl (a := f.offset.toNat + p)
      obtain ⟨part, hpart⟩ := hpiece _ (PieceMap.ofNat_lt hi)
      obtain ⟨s, hs, hfile, hlo, hhi⟩ := exists_segment hplaced hpart hk hp
        (by rw [PieceMap.toNat_ofNat hi]; exact hstart)
        (by rw [PieceMap.toNat_ofNat hi]; exact hend)
      exact ⟨s.span, List.mem_map_of_mem (List.mem_filter.mpr ⟨(mem_segmentsOf hsegs).mpr
        ⟨_, mem_indices.mpr (PieceMap.ofNat_lt hi), part, hpart, hs⟩, decide_eq_true hfile⟩),
        hlo, hhi⟩

theorem fitting_of_piecesTile (h : PiecesTile info) : Fitting info := by
  obtain ⟨l, count, segs, hl, hcount, hsegs, htiled⟩ := h
  obtain ⟨hlength, hsize, hplaced, hlt, -⟩ := ofInfo_spec hl
  have htoNat := toNat_pieceCount hcount
  have hfull : count.toNat = info.fullCount := by
    rw [htoNat, hsize, hlength]
    rfl
  have hcountlt := count.toNat_lt
  refine ⟨hlt, ?_, hfull ▸ hcountlt, fun hzero => ?_⟩
  · -- the last piece has segments
    by_cases hnone : count.toNat = 0
    · rw [← hfull, hnone, Nat.zero_mul]
      exact Nat.zero_lt_succ _
    · have hlt : count.toNat - 1 < count.toNat := by omega
      have hlast : (UInt32.ofNat (count.toNat - 1)).toNat = count.toNat - 1 :=
        PieceMap.toNat_ofNat hlt
      obtain ⟨part, n, hpart, -⟩ := htiled.pieces _ (PieceMap.ofNat_lt hlt)
      obtain ⟨-, -, -, -, -, hend⟩ := pieceSegments_eq_some hpart
      rw [hlast, ← Nat.succ_mul, hlength] at hend
      rwa [← hfull, show count.toNat = (count.toNat - 1).succ by omega]
  · -- without pieces there are no segments, and no bytes
    rw [hlength, hzero, ceilDiv_zero] at htoNat
    have hnil : segs = [] := by
      rw [indices, htoNat] at hsegs
      exact (Option.some.inj hsegs).symm
    rw [← hsize]
    refine Tiling.total_eq_zero.mpr fun f hf => Nat.eq_zero_of_not_pos fun hpos => ?_
    obtain ⟨k, hk⟩ := List.getElem?_of_mem hf
    have hcover := htiled.once k f hk 0
    rw [hnil, Tiling.Span.hits_of_mem ⟨Nat.le_refl 0, hpos⟩] at hcover
    cases hcover

/-- **The segments of the pieces tile the torrent** if and only if its pieces fit their types. -/
theorem piecesTile_iff (info : Info) : PiecesTile info ↔ Fitting info :=
  ⟨fitting_of_piecesTile, piecesTile_of_fitting⟩

/-- Pieces of one byte, and a file of `2^32` bytes. -/
def longFile : Info :=
  { name := "a", pieceLength := 1, pieces := [], multiFile := false, private_ := false
    files := [{ path := ["a"], length := 4294967296 }] }

/-- The count of the pieces of `longFile` is one more than `u32` holds. -/
theorem longFile_untiled : ¬PiecesTile longFile :=
  fun h => absurd (fitting_of_piecesTile h).count (by decide)

end Storage.PieceLayout

end XferRust
