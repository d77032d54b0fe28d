import XferRust.Storage.Completion

/-! # Progress agrees with completion

Two files are enough to tell the three computations apart: a selected file without bytes that lies
inside a piece of unselected ones.  The piece is wanted by its segments, but no byte of it counts
for the selection, so all bytes are done before the download is.
-/
namespace XferRust.Storage
open Tiling (total)
open Counting (tally)

/-! ## A map of given pieces -/

namespace PieceMap

/-- The pieces of a list that have `p` are set as well. -/
def mark (p : UInt32 → Bool) (m : PieceMap) (idxs : List UInt32) : PieceMap :=
  idxs.foldl (fun m i => if p i then m.set i else m) m

variable {p : UInt32 → Bool} {m : PieceMap} {idxs : List UInt32}

theorem mark_count : (mark p m idxs).count = m.count := by
  induction idxs generalizing m with
  | nil => rfl
  | cons i idxs ih =>
    rw [mark, List.foldl_cons, ← mark, ih]
    split
    · exact m.set_count i
    · rfl

theorem Clean.mark (h : m.Clean) : (PieceMap.mark p m idxs).Clean := by
  induction idxs generalizing m with
  | nil => exact h
  | cons i idxs ih =>
    rw [PieceMap.mark, List.foldl_cons, ← PieceMap.mark]
    refine ih ?_
    split
    · exact h.set i
    · exact h

theorem isSet_mark (hidx : ∀ i ∈ idxs, i < m.count) {j : UInt32} :
    (mark p m idxs).isSet j = true ↔ m.isSet j = true ∨ (j ∈ idxs ∧ p j = true) := by
  induction idxs generalizing m with
  | nil => exact ⟨.inl, fun h => h.resolve_right fun h => nomatch h.1⟩
  | cons i idxs ih =>
    obtain ⟨hi, hidx⟩ := List.forall_mem_cons.mp hidx
    rw [mark, List.foldl_cons, ← mark, List.mem_cons]
    split
    · rename_i hp
      rw [ih fun k hk => (m.set_count i).symm ▸ hidx k hk, isSet_set_of_lt hi, Bool.or_eq_true,
        decide_eq_true_eq]
      constructor
      · rintro ((rfl | h) | h)
        · exact .inr ⟨.inl rfl, hp⟩
        · exact .inl h
        · exact .inr ⟨.inr h.1, h.2⟩
      · rintro (h | ⟨rfl | h, hj⟩)
        · exact .inl (.inr h)
        · exact .inl (.inl rfl)
        · exact .inr ⟨h, hj⟩
    · rename_i hp
      rw [ih hidx]
      refine or_congr_right ⟨fun h => ⟨.inr h.1, h.2⟩, fun ⟨hj, hpj⟩ => ⟨?_, hpj⟩⟩
      rcases hj with rfl | hj
      · exact absurd hpj hp
      · exact hj

/-- The map of the pieces with `p`. -/
def having (count : UInt32) (p : UInt32 → Bool) : PieceMap := mark p (new count) (indices count)

theorem isSet_having {count j : UInt32} :
    (having count p).isSet j = true ↔ j < count ∧ p j = true := by
  have hidx : ∀ i ∈ indices count, i < (new count).count := fun i hi => mem_indices.mp hi
  rw [having, isSet_mark hidx, isSet_new, mem_indices]
  exact ⟨fun h => h.resolve_left Bool.false_ne_true, .inr⟩

end PieceMap

/-! ## Sums over a selection -/

section Sums
variable {α : Type} {f g : α → Nat} {xs : List α} {s : List Nat}

theorem selectedSum_zero {ns : List Nat} (i : Nat) (h : ∀ n ∈ ns, n = 0) :
    selectedSum s i ns = 0 := by
  induction ns generalizing i with
  | nil => rfl
  | cons n ns ih =>
    obtain ⟨hn, hns⟩ := List.forall_mem_cons.mp h
    rw [selectedSum, ih _ hns, hn, ite_self]

theorem selectedSum_le (i : Nat) (hle : ∀ x ∈ xs, f x ≤ g x) :
    selectedSum s i (xs.map f) ≤ selectedSum s i (xs.map g) := by
  induction xs generalizing i with
  | nil => exact Nat.le_refl 0
  | cons x xs ih =>
    obtain ⟨hx, hxs⟩ := List.forall_mem_cons.mp hle
    have hrest := ih (i + 1) hxs
    rw [List.map_cons, List.map_cons, selectedSum, selectedSum]
    split
    · omega
    · exact hrest

/-- The sums are equal when each selected term is. -/
theorem selectedSum_eq_iff (i : Nat) (hle : ∀ x ∈ xs, f x ≤ g x) :
    selectedSum s i (xs.map f) = selectedSum s i (xs.map g) ↔
      ∀ (k : Nat) (x : α), xs[k]? = some x → i + k ∈ s → f x = g x := by
  induction xs generalizing i with
  | nil => exact ⟨fun _ k x hk => (nomatch hk), fun _ => rfl⟩
  | cons x xs ih =>
    obtain ⟨hx, hxs⟩ := List.forall_mem_cons.mp hle
    have hrest := ih (i + 1) hxs
    have hsum := selectedSum_le (s := s) (i + 1) hxs
    have htail : (∀ (k : Nat) (y : α), (x :: xs)[k]? = some y → i + k ∈ s → f y = g y) ↔
        (i ∈ s → f x = g x) ∧
          ∀ (k : Nat) (y : α), xs[k]? = some y → i + 1 + k ∈ s → f y = g y := by
      constructor
      · refine fun h => ⟨h 0 x rfl, fun k y hk hs => h (k + 1) y hk ?_⟩
        rwa [← Nat.add_assoc, Nat.add_right_comm]
      · rintro ⟨hfirst, hrest⟩ k y hk hs
        cases k with
        | zero =>
          obtain rfl := Option.some.inj hk
          exact hfirst hs
        | succ k => exact hrest k y hk (by rwa [Nat.add_right_comm, Nat.add_assoc])
    rw [htail, ← hrest, List.map_cons, List.map_cons, selectedSum, selectedSum]
    split
    · rename_i hs
      have hs := List.contains_iff_mem.mp hs
      constructor
      · intro h
        exact ⟨fun _ => by omega, by omega⟩
      · rintro ⟨hfirst, hrest⟩
        rw [hfirst hs, hrest]
    · rename_i hs
      have hs := mt List.contains_iff_mem.mpr hs
      exact ⟨fun h => ⟨fun hmem => absurd hmem hs, h⟩, And.right⟩

end Sums

namespace PieceLayout
variable {l : PieceLayout} {count : UInt32}

/-! ## The wanted pieces -/

/-- A file of the selection. -/
def Selected (l : PieceLayout) (s : List Nat) (f : FileLayout) : Prop :=
  ∃ k, l.files[k]? = some f ∧ k ∈ s

/-- The file has a segment in piece `i`. -/
def Meets (l : PieceLayout) (i : Nat) (f : FileLayout) : Prop :=
  f.offset.toNat < min (i * l.pieceLength.toNat + l.pieceLength.toNat) l.size ∧
    i * l.pieceLength.toNat < f.offset.toNat + f.length.toNat

/-- The file has byte `g`. -/
def HasByte (f : FileLayout) (g : Nat) : Prop :=
  f.offset.toNat ≤ g ∧ g < f.offset.toNat + f.length.toNat

variable {s : List Nat} {f : FileLayout} {g i : Nat} {p : UInt32 → Bool} {map w : PieceMap}

theorem pieceSegments_any {idx : UInt32} {segs : List Segment}
    (hidx : idx.toNat * l.pieceLength.toNat ≤ l.size) (h : l.pieceSegments idx = some segs) :
    (segs.any fun seg => s.contains seg.file) = true ↔
      ∃ f, l.Selected s f ∧ l.Meets idx.toNat f := by
  obtain ⟨ps, hps, h⟩ := Option.bind_eq_some_iff.mp h
  obtain ⟨full, hfull, h⟩ := Option.bind_eq_some_iff.mp h
  obtain ⟨n, hn, h⟩ := Option.bind_eq_some_iff.mp h
  have hps : ps.toNat = idx.toNat * l.pieceLength.toNat := Checked.mul_eq_some.mp hps
  have hfull := Checked.add_eq_some.mp hfull
  have hn := totalLength_eq_some.mp hn
  have hmin : (min full n).toNat =
      min (idx.toNat * l.pieceLength.toNat + l.pieceLength.toNat) l.size := by
    rw [Word.toNat_min, hfull, hn, hps]
  rw [List.any_eq_true]
  constructor
  · rintro ⟨seg, hseg, hs⟩
    obtain ⟨k, f, hk, hfile, hlo, hhi, -⟩ := (mem_segmentsFrom h).mp hseg
    rw [hfile, Nat.zero_add] at hs
    exact ⟨f, ⟨k, hk, List.contains_iff_mem.mp hs⟩, hmin ▸ hlo, hps ▸ hhi⟩
  · rintro ⟨f, ⟨k, hk, hs⟩, hlo, hhi⟩
    rw [← hmin] at hlo
    rw [← hps] at hhi
    have hend := f.offset.toNat_lt
    obtain ⟨off, hoff⟩ := @Checked.exists_toNat (max ps.toNat f.offset.toNat - f.offset.toNat)
      (by have := ps.toNat_lt; omega)
    obtain ⟨len, hlen⟩ := @Checked.exists_toNat
      (min (min full n).toNat (f.offset.toNat + f.length.toNat) - max ps.toNat f.offset.toNat)
      (by have := (min full n).toNat_lt; omega)
    have hle : ps.toNat ≤ (min full n).toNat := by omega
    refine ⟨{ file := k, offset := off, len }, (mem_segmentsFrom h).mpr
      ⟨k, f, hk, (Nat.zero_add k).symm, hlo, hhi, ?_, ?_⟩, List.contains_iff_mem.mpr hs⟩
    · show off.toNat + _ = _
      omega
    · show off.toNat + _ + len.toNat = _
      omega

/-- A selected file has a segment in piece `i`. -/
def Touched (l : PieceLayout) (s : List Nat) (i : Nat) : Prop := ∃ f, l.Selected s f ∧ l.Meets i f

/-- A selected file has a byte in piece `i`. -/
def Held (l : PieceLayout) (s : List Nat) (i : Nat) : Prop :=
  ∃ f g, l.Selected s f ∧ HasByte f g ∧ g / l.pieceLength.toNat = i

theorem Counted.markWanted (h : l.Counted count)
    (hfit : count.toNat * l.pieceLength.toNat < 18446744073709551616) {idxs : List UInt32}
    (hidx : ∀ i ∈ idxs, i < count) {m : PieceMap} (hm : m.Clean) (hcount : m.count = count) :
    ∃ w, l.markWanted s m idxs = some w ∧ w.count = count ∧ w.Clean ∧
      ∀ j, w.isSet j = true ↔ m.isSet j = true ∨ (j ∈ idxs ∧ l.Touched s j.toNat) := by
  induction idxs generalizing m with
  | nil =>
    exact ⟨m, rfl, hcount, hm, fun j => ⟨.inl, fun h => h.resolve_right fun h => by cases h.1⟩⟩
  | cons i idxs ih =>
    obtain ⟨hi, hidx⟩ := List.forall_mem_cons.mp hidx
    have hi' := UInt32.lt_iff_toNat_lt.mp hi
    have hstart := (h.starts i.toNat).mp hi'
    have hend := Nat.mul_le_mul_right l.pieceLength.toNat hi'
    rw [Nat.succ_mul] at hend
    obtain ⟨segs, hsegs⟩ := @exists_pieceSegments l i h.placed h.size (by omega) (by omega)
    have hany := pieceSegments_any (s := s) (by omega) hsegs
    rw [PieceLayout.markWanted, hsegs, Option.bind_eq_bind, Option.bind_some]
    by_cases ht : l.Touched s i.toNat
    · rw [if_pos (hany.mpr ht)]
      obtain ⟨w, hw, hwc, hwclean, hset⟩ := ih hidx (hm.set i) ((m.set_count i).trans hcount)
      refine ⟨w, hw, hwc, hwclean, fun j => ?_⟩
      rw [hset, PieceMap.isSet_set_of_lt (hcount.symm ▸ hi), Bool.or_eq_true, decide_eq_true_eq,
        List.mem_cons]
      constructor
      · rintro ((rfl | h) | h)
        · exact .inr ⟨.inl rfl, ht⟩
        · exact .inl h
        · exact .inr ⟨.inr h.1, h.2⟩
      · rintro (h | ⟨rfl | h, hj⟩)
        · exact .inl (.inr h)
        · exact .inl (.inl rfl)
        · exact .inr ⟨h, hj⟩
    · rw [if_neg (mt hany.mp ht)]
      obtain ⟨w, hw, hwc, hwclean, hset⟩ := ih hidx hm hcount
      refine ⟨w, hw, hwc, hwclean, fun j => ?_⟩
      rw [hset, List.mem_cons]
      refine or_congr_right ⟨fun h => ⟨.inr h.1, h.2⟩, fun ⟨hj, htj⟩ => ⟨?_, htj⟩⟩
      rcases hj with rfl | hj
      · exact absurd htj ht
      · exact hj

/-- **The wanted pieces** are those in which a selected file has a segment. -/
theorem Counted.wantedPieceMask (h : l.Counted count)
    (hfit : count.toNat * l.pieceLength.toNat < 18446744073709551616)
    (hcount : l.pieceCount = some count) (s : List Nat) :
    ∃ w, l.wantedPieceMask (some s) = some (some w) ∧ w.count = count ∧ w.Clean ∧
      ∀ j, w.isSet j = true ↔ j < count ∧ l.Touched s j.toNat := by
  obtain ⟨w, hw, hwc, hclean, hset⟩ := h.markWanted hfit (s := s)
    (fun i hi => mem_indices.mp hi) (PieceMap.clean_new count) rfl
  refine ⟨w, ?_, hwc, hclean, fun j => ?_⟩
  · simp only [PieceLayout.wantedPieceMask, hcount, hw, Option.bind_eq_bind, Option.bind_some]
  · rw [hset, PieceMap.isSet_new, mem_indices]
    exact ⟨fun h => h.resolve_left Bool.false_ne_true, .inr⟩

/-! ## Files without bytes -/

theorem Selected.le_size (h : l.Counted count) (hf : l.Selected s f) :
    f.offset.toNat + f.length.toNat ≤ l.size := by
  obtain ⟨k, hk, -⟩ := hf
  have := (h.placed.bounds hk).2
  rwa [Nat.zero_add] at this

theorem Counted.meets_of_byte (h : l.Counted count) (hf : l.Selected s f) (hg : HasByte f g) :
    l.Meets (g / l.pieceLength.toNat) f := by
  have hsize := hf.le_size h
  have hdiv := Nat.div_mul_le_self g l.pieceLength.toNat
  have hlt := Nat.lt_div_mul_add h.length (a := g)
  obtain ⟨hlo, hhi⟩ := hg
  exact ⟨by omega, by omega⟩

theorem Counted.exists_byte (h : l.Counted count) (hf : l.Meets i f) (hlen : 0 < f.length.toNat) :
    ∃ g, HasByte f g ∧ g / l.pieceLength.toNat = i := by
  have hpl := h.length
  obtain ⟨hlo, hhi⟩ := hf
  refine ⟨max (i * l.pieceLength.toNat) f.offset.toNat, ⟨by omega, by omega⟩,
    div_eq_of_mem (by omega) (by omega)⟩

/-- The selection has bytes, and where one of its files without bytes lies inside a piece, the
selection has bytes in this piece. -/
structure Spans (l : PieceLayout) (s : List Nat) : Prop where
  bytes : ∃ f, l.Selected s f ∧ 0 < f.length.toNat
  inner : ∀ i f, l.Selected s f → f.length.toNat = 0 → l.Meets i f → l.Held s i

theorem Counted.touched_of_held (h : l.Counted count) (hi : l.Held s i) : l.Touched s i := by
  obtain ⟨f, g, hf, hg, rfl⟩ := hi
  exact ⟨f, hf, h.meets_of_byte hf hg⟩

/-- A selection spans pieces as it wants them: all that it touches, it has bytes of. -/
theorem Counted.spans_iff (h : l.Counted count) :
    l.Spans s ↔ (∃ i, l.Held s i) ∧ ∀ i, l.Touched s i → l.Held s i := by
  constructor
  · rintro ⟨⟨f, hf, hlen⟩, hinner⟩
    refine ⟨⟨_, f, f.offset.toNat, hf, ⟨Nat.le_refl _, by omega⟩, rfl⟩, ?_⟩
    rintro i ⟨f, hf, hmeets⟩
    by_cases hlen : 0 < f.length.toNat
    · obtain ⟨g, hg, hi⟩ := h.exists_byte hmeets hlen
      exact ⟨f, g, hf, hg, hi⟩
    · exact hinner i f hf (by omega) hmeets
  · rintro ⟨⟨i, f, g, hf, hg, -⟩, htouched⟩
    refine ⟨⟨f, hf, ?_⟩, fun i f hf _ hmeets => htouched i ⟨f, hf, hmeets⟩⟩
    obtain ⟨hlo, hhi⟩ := hg
    omega

theorem Touched.lt (h : l.Counted count) (hi : l.Touched s i) : i < count.toNat := by
  obtain ⟨f, hf, hlo, hhi⟩ := hi
  have hsize := hf.le_size h
  exact (h.starts i).mpr (by omega)

/-! ## The bytes that are done -/

theorem Placed.total_tally {lo : Nat} {files : List FileLayout} (h : Placed lo files)
    (p : Nat → Bool) : total (fun f => tally p f.offset.toNat f.length.toNat) files =
      tally p lo (total (fun f => f.length.toNat) files) := by
  induction files generalizing lo with
  | nil => rfl
  | cons f files ih =>
    obtain ⟨hoff, hplaced⟩ := h
    rw [Tiling.total_cons, Tiling.total_cons, Counting.tally_add, ← ih hplaced, hoff]

/-- The piece of each byte is set in a map. -/
theorem doneByte_iff (h : l.Counted count) (hg : g < l.size) :
    l.doneByte p g = true ↔ ∀ j, j < count → j.toNat = g / l.pieceLength.toNat → p j = true := by
  constructor
  · intro hdone j hj hval
    rwa [doneByte, ← hval, UInt32.ofNat_toNat] at hdone
  · exact fun hall => hall _ (h.lt hg) (h.toNat hg)

theorem Counted.doneBytesOf_all (h : l.Counted count) (hmap : map.count = count) :
    l.doneBytesOf map none none = some (tally (l.doneByte map.isSet) 0 l.size) := by
  rw [PieceLayout.doneBytesOf, hmap]
  split
  · rename_i hzero
    have hsize := mt (h.starts 0).mpr (by rw [hzero]; exact Nat.lt_irrefl 0)
    rw [Nat.zero_mul] at hsize
    rw [show l.size = 0 by omega]
    rfl
  · obtain ⟨sum, hsum, hval⟩ := h.lengthsFrom map.isSet
    have hsame : (fun i => (none : Option PieceMap).elim true (fun m => m.isSet i) && map.isSet i) =
        map.isSet := funext fun i => Bool.true_and _
    show (PieceLayout.lengthsFrom l (lastIndex count) (fun i => _ && _) 0 (indices count)).map _ = _
    rw [hsame, hsum, Option.map_some, hval]

theorem Counted.doneBytesOf_selected (h : l.Counted count)
    (hfit : count.toNat * l.pieceLength.toNat < 18446744073709551616) (hmap : map.count = count)
    (s : List Nat) :
    l.doneBytesOf map (some w) (some s) = some (selectedSum s 0 (l.files.map fun f =>
      tally (l.doneByte fun i => w.isSet i && map.isSet i) f.offset.toNat f.length.toNat)) := by
  rw [PieceLayout.doneBytesOf, hmap]
  split
  · rename_i hzero
    have hsize := mt (h.starts 0).mpr (by rw [hzero]; exact Nat.lt_irrefl 0)
    rw [Nat.zero_mul] at hsize
    have hempty := Tiling.total_eq_zero.mp (show l.size = 0 by omega)
    refine congrArg some (selectedSum_zero 0 fun n hn => ?_).symm
    obtain ⟨f, hf, rfl⟩ := List.mem_map.mp hn
    rw [hempty f hf]
    rfl
  · show (PieceLayout.filesDoneBytes l fun i => w.isSet i && map.isSet i).map _ = _
    rw [h.filesDoneBytes hfit, Option.map_some, List.map_map]
    rfl

/-- The bytes of a selection are all done when the pieces that hold them are. -/
theorem Counted.selected_done_iff (h : l.Counted count) :
    selectedSum s 0 (l.files.map fun f =>
        tally (l.doneByte p) f.offset.toNat f.length.toNat) = l.selectedLength (some s) ↔
      ∀ j, j < count → l.Held s j.toNat → p j = true := by
  rw [selectedLength, selectedSum_eq_iff 0 fun f _ => Counting.tally_le _ _ _]
  constructor
  · rintro hall j hj ⟨f, g, ⟨k, hk, hs⟩, hg, hdiv⟩
    have hdone := Counting.tally_eq_iff.mp (hall k f hk (by rwa [Nat.zero_add])) g hg.1 hg.2
    have hsize := Selected.le_size h ⟨k, hk, hs⟩
    exact (doneByte_iff h (Nat.lt_of_lt_of_le hg.2 hsize)).mp hdone j hj hdiv.symm
  · intro hall k f hk hs
    rw [Nat.zero_add] at hs
    have hsize := Selected.le_size h ⟨k, hk, hs⟩
    refine Counting.tally_eq_iff.mpr fun g hlo hhi => (doneByte_iff h (by omega)).mpr ?_
    exact fun j hj hval => hall j hj ⟨f, g, ⟨k, hk, hs⟩, ⟨hlo, hhi⟩, hval.symm⟩

/-! ## The agreement -/

/-- For one map of finished pieces, the bytes of a selection that are done, its length and its
completion agree, and so do the bytes of all files and those of each. -/
structure Agree (l : PieceLayout) (wanted : Option PieceMap) (selected : Option (List Nat))
    (map : PieceMap) : Prop where
  done : ∃ n, l.doneBytesOf map wanted selected = some n ∧ n ≤ l.selectedLength selected ∧
    (n = l.selectedLength selected ↔ allWantedDone wanted map = true)
  each : ∃ n ns, l.doneBytesOf map none none = some n ∧ l.filesDoneBytes map.isSet = some ns ∧
    n = total id ns
  complete : ∀ ns, l.filesDoneBytes map.isSet = some ns →
    (∀ (k : Nat) (f : FileLayout), l.files[k]? = some f → (∀ s, selected = some s → k ∈ s) →
      ns[k]? = some f.length.toNat) → allWantedDone wanted map = true

/-- All is computed, and it agrees whatever pieces are there. -/
def Consistent (l : PieceLayout) (selected : Option (List Nat)) : Prop :=
  ∃ count, l.pieceCount = some count ∧ ∃ wanted, l.wantedPieceMask selected = some wanted ∧
    ∀ map : PieceMap, map.count = count → map.Clean → l.Agree wanted selected map

/-- The pieces are fewer than `2^32` and end below `2^64`.  Without a piece length there is none, so
there must be nothing to do. -/
def Fits (l : PieceLayout) (selected : Option (List Nat)) : Prop :=
  if l.pieceLength.toNat = 0 then selected = none → l.size = 0
  else
    let count := Checked.ceilDiv l.size l.pieceLength.toNat
    count < 4294967296 ∧ count * l.pieceLength.toNat < 18446744073709551616

theorem Counted.total_eq (h : l.Counted count) (p : UInt32 → Bool) :
    total id (l.bounds.map fun b => tally (l.doneByte p) b.1 b.2) =
      tally (l.doneByte p) 0 l.size := by
  rw [PieceLayout.size, ← h.placed.total_tally, Tiling.total_map, Tiling.total_map]
  rfl

/-- All bytes are done when all pieces are. -/
theorem Counted.all_done_iff (h : l.Counted count) :
    tally (l.doneByte p) 0 l.size = l.size ↔ ∀ j, j < count → p j = true := by
  rw [Counting.tally_eq_iff]
  constructor
  · intro hall j hj
    have hlt := (h.starts j.toNat).mp (UInt32.lt_iff_toNat_lt.mp hj)
    refine (doneByte_iff h hlt).mp (hall _ (Nat.zero_le _) (by rwa [Nat.zero_add])) j hj ?_
    exact (Nat.mul_div_cancel _ h.length).symm
  · intro hall g _ hg
    rw [Nat.zero_add] at hg
    exact (doneByte_iff h hg).mpr fun j hj _ => hall j hj

/-- A file is complete when each of its bytes is done. -/
theorem Counted.file_complete (h : l.Counted count) {k : Nat} (hk : l.files[k]? = some f)
    (hdone : (l.bounds.map fun b => tally (l.doneByte p) b.1 b.2)[k]? = some f.length.toNat)
    (hg : HasByte f g) {j : UInt32} (hj : j < count) (hval : g / l.pieceLength.toNat = j.toNat) :
    p j = true := by
  rw [List.getElem?_map, List.getElem?_map, hk] at hdone
  have hall := Counting.tally_eq_iff.mp (Option.some.inj hdone) g hg.1 hg.2
  have hsize := (h.placed.bounds hk).2
  rw [Nat.zero_add] at hsize
  exact (doneByte_iff h (Nat.lt_of_lt_of_le hg.2 hsize)).mp hall j hj hval.symm

theorem Counted.agree_each (h : l.Counted count)
    (hfit : count.toNat * l.pieceLength.toNat < 18446744073709551616) (hmap : map.count = count) :
    ∃ n ns, l.doneBytesOf map none none = some n ∧
      l.filesDoneBytes map.isSet = some ns ∧ n = total id ns :=
  ⟨_, _, h.doneBytesOf_all hmap, h.filesDoneBytes hfit map.isSet, (h.total_eq _).symm⟩

theorem Counted.agree_all (h : l.Counted count)
    (hfit : count.toNat * l.pieceLength.toNat < 18446744073709551616) (hmap : map.count = count)
    (hclean : map.Clean) : l.Agree none none map := by
  have hfiles := h.filesDoneBytes hfit map.isSet
  have hall : allWantedDone none map = true ↔ ∀ j, j < count → map.isSet j = true := by
    rw [← hmap]
    exact hclean.allDone_iff
  refine ⟨⟨_, h.doneBytesOf_all hmap, Counting.tally_le _ _ _, ?_⟩,
    h.agree_each hfit hmap, fun ns hns hcomplete => ?_⟩
  · rw [hall]
    exact h.all_done_iff
  · rw [hfiles] at hns
    obtain rfl := Option.some.inj hns
    rw [hall, ← h.all_done_iff]
    have heach : tally (l.doneByte map.isSet) 0 l.size = _ := (h.placed.total_tally _).symm
    rw [heach, PieceLayout.size]
    refine Tiling.total_congr fun f hf => ?_
    obtain ⟨k, hk⟩ := List.getElem?_of_mem hf
    have := hcomplete k f hk nofun
    rw [List.getElem?_map, List.getElem?_map, hk] at this
    exact Option.some.inj this

theorem allWantedDone_iff (hclean : w.Clean) :
    allWantedDone (some w) map = true ↔
      (∃ j, w.isSet j = true) ∧ ∀ j, w.isSet j = true → map.isSet j = true := by
  have hzero := hclean.doneCount_eq_zero
  rw [allWantedDone]
  split
  · rename_i hnone
    refine ⟨nofun, ?_⟩
    rintro ⟨⟨j, hj⟩, -⟩
    exact absurd hj (by rw [hzero.mp hnone j]; exact Bool.false_ne_true)
  · rename_i hsome
    have hex : ∃ j, w.isSet j = true := by
      refine Classical.byContradiction fun hno => hsome (hzero.mpr fun j => ?_)
      exact Bool.eq_false_iff.mpr fun hj => hno ⟨j, hj⟩
    rw [List.all_eq_true, and_iff_right hex]
    constructor
    · intro hall j hj
      have := hall j (mem_indices.mpr (PieceMap.lt_count hj))
      rwa [hj, Bool.not_true, Bool.false_or] at this
    · intro hall j _
      by_cases hj : w.isSet j = true
      · rw [hall j hj, Bool.or_true]
      · rw [Bool.eq_false_iff.mpr hj]
        rfl

theorem Counted.agree_selected_iff (h : l.Counted count)
    (hfit : count.toNat * l.pieceLength.toNat < 18446744073709551616) (hclean : w.Clean)
    (hset : ∀ j, w.isSet j = true ↔ j < count ∧ l.Touched s j.toNat) :
    (∀ map : PieceMap, map.count = count → map.Clean → l.Agree (some w) (some s) map) ↔
      l.Spans s := by
  -- done as the bytes have it
  have hdone (map : PieceMap) : (∀ j, j < count → l.Held s j.toNat →
      (w.isSet j && map.isSet j) = true) ↔ ∀ j, j < count → l.Held s j.toNat → map.isSet j = true := by
    refine forall_congr' fun j => forall_congr' fun hj => forall_congr' fun hheld => ?_
    rw [(hset j).mpr ⟨hj, h.touched_of_held hheld⟩, Bool.true_and]
  have hfull (map : PieceMap) (hmap : map.count = count) :
      (selectedSum s 0 (l.files.map fun f => tally (l.doneByte fun i => w.isSet i && map.isSet i)
        f.offset.toNat f.length.toNat) = l.selectedLength (some s)) ↔
        ∀ j, j < count → l.Held s j.toNat → map.isSet j = true :=
    h.selected_done_iff.trans (hdone map)
  rw [h.spans_iff]
  constructor
  · intro hagree
    classical
    -- the map of the pieces that hold bytes of the selection
    let map := PieceMap.having count fun j => decide (l.Held s j.toNat)
    have hmap : map.count = count := PieceMap.mark_count
    have hheld (j : UInt32) : map.isSet j = true ↔ j < count ∧ l.Held s j.toNat := by
      rw [PieceMap.isSet_having, decide_eq_true_eq]
    obtain ⟨n, hn, -, hiff⟩ := (hagree map hmap (PieceMap.clean_new count).mark).done
    rw [h.doneBytesOf_selected hfit hmap s] at hn
    rw [← Option.some.inj hn, hfull map hmap, allWantedDone_iff hclean] at hiff
    obtain ⟨⟨j, hj⟩, hwanted⟩ := hiff.mp fun j hj hi => (hheld j).mpr ⟨hj, hi⟩
    refine ⟨⟨_, ((hheld j).mp (hwanted j hj)).2⟩, fun i hi => ?_⟩
    have hlt := hi.lt h
    have hval := PieceMap.toNat_ofNat hlt
    have hi' := hwanted (UInt32.ofNat i) ((hset _).mpr ⟨PieceMap.ofNat_lt hlt, by rwa [hval]⟩)
    rw [hheld, hval] at hi'
    exact hi'.2
  · rintro ⟨⟨i, hi⟩, htouched⟩ map hmap -
    have hall : allWantedDone (some w) map = true ↔
        ∀ j, j < count → l.Held s j.toNat → map.isSet j = true := by
      rw [allWantedDone_iff hclean]
      constructor
      · rintro ⟨-, hwanted⟩ j hj hheld
        exact hwanted j ((hset j).mpr ⟨hj, h.touched_of_held hheld⟩)
      · refine fun hheld => ⟨?_, fun j hj => ?_⟩
        · have hlt := (h.touched_of_held hi).lt h
          refine ⟨UInt32.ofNat i, (hset _).mpr ⟨PieceMap.ofNat_lt hlt, ?_⟩⟩
          rw [PieceMap.toNat_ofNat hlt]
          exact h.touched_of_held hi
        · obtain ⟨hlt, ht⟩ := (hset j).mp hj
          exact hheld j hlt (htouched _ ht)
    refine ⟨⟨_, h.doneBytesOf_selected hfit hmap s, ?_, (hfull map hmap).trans hall.symm⟩,
      h.agree_each hfit hmap, fun ns hns hcomplete => hall.mpr ?_⟩
    · exact selectedSum_le 0 fun f _ => Counting.tally_le _ _ _
    · rw [h.filesDoneBytes hfit] at hns
      obtain rfl := Option.some.inj hns
      rintro j hj ⟨f, g, ⟨k, hk, hs⟩, hg, hval⟩
      exact h.file_complete hk (hcomplete k f hk fun s' hs' => Option.some.inj hs' ▸ hs) hg hj hval

theorem pieceCount_spec (hpl : 0 < l.pieceLength.toNat) :
    l.pieceCount = some count ↔ l.size < 18446744073709551616 ∧
      count.toNat = Checked.ceilDiv l.size l.pieceLength.toNat := by
  have hne : l.pieceLength ≠ 0 := by
    intro h
    rw [h] at hpl
    exact Nat.lt_irrefl 0 hpl
  constructor
  · intro h
    obtain ⟨n, hn, h⟩ := Option.bind_eq_some_iff.mp h
    have hsize := totalLength_eq_some.mp hn
    have hlt := n.toNat_lt
    rw [if_neg hne] at h
    rw [Checked.toU32_eq_some.mp h, Checked.toNat_divCeil hpl, hsize]
    exact ⟨by omega, rfl⟩
  · rintro ⟨hlt, hcount⟩
    obtain ⟨n, hn⟩ := Checked.exists_toNat hlt
    rw [PieceLayout.pieceCount, totalLength_eq_some.mpr hn, Option.bind_eq_bind, Option.bind_some,
      if_neg hne]
    exact Checked.toU32_eq_some.mpr (by rw [hcount, Checked.toNat_divCeil hpl, hn])

theorem new_spec {pieceLength : UInt64} {files : List (List String × UInt64)}
    (hnew : PieceLayout.new pieceLength files = some l) :
    Placed 0 l.files ∧ l.size < 18446744073709551616 := by
  obtain ⟨ls, hplace, hnew⟩ := Option.bind_eq_some_iff.mp hnew
  obtain rfl := Option.some.inj hnew
  obtain ⟨hplaced, -, hlt⟩ := place_spec hplace
  rw [UInt64.toNat_zero, Nat.zero_add] at hlt
  exact ⟨hplaced, hlt⟩

theorem counted_of_new {pieceLength : UInt64} {files : List (List String × UInt64)}
    (hnew : PieceLayout.new pieceLength files = some l) (hpl : 0 < l.pieceLength.toNat)
    (hcount : l.pieceCount = some count) : l.Counted count := by
  obtain ⟨hplaced, hlt⟩ := new_spec hnew
  refine ⟨hplaced, hlt, hpl, fun i => ?_⟩
  rw [((pieceCount_spec hpl).mp hcount).2, Checked.lt_ceilDiv_iff hpl]

theorem countPieces_fits {pieceLength size : Nat} {bounds : List (Nat × Nat)} {is : List Nat}
    {fi : Nat} {out ns : List Nat} (h : countPieces pieceLength size bounds p is fi out = some ns)
    (hi : i ∈ is) (hp : p (UInt32.ofNat i) = true) :
    i * pieceLength + pieceLength < 18446744073709551616 := by
  induction is generalizing fi out with
  | nil => cases hi
  | cons j is ih =>
    rw [countPieces] at h
    rcases List.mem_cons.mp hi with rfl | hi
    · rw [if_pos hp] at h
      dsimp only at h
      split at h
      · cases h
      · rename_i hlt
        exact Nat.lt_of_not_le hlt
    · split at h
      · dsimp only at h
        split at h
        · cases h
        · exact ih h hi
      · exact ih h hi

/-- Where the last piece is there, its end is computed. -/
theorem Counted.fits_of_consistent (h : l.Counted count) {selected : Option (List Nat)}
    (hcount : l.pieceCount = some count) (hcons : l.Consistent selected) :
    count.toNat * l.pieceLength.toNat < 18446744073709551616 := by
  obtain ⟨count', hcount', _, _, hagree⟩ := hcons
  obtain rfl := Option.some.inj (hcount.symm.trans hcount')
  have hpl := h.length
  by_cases hzero : count.toNat = 0
  · rw [hzero, Nat.zero_mul]
    decide
  have hsize := (h.starts 0).mp (Nat.pos_of_ne_zero hzero)
  rw [Nat.zero_mul] at hsize
  obtain ⟨-, ns, -, hns, -⟩ := (hagree (PieceMap.having count fun _ => true) PieceMap.mark_count
    (PieceMap.clean_new count).mark).each
  rw [PieceLayout.filesDoneBytes] at hns
  split at hns
  · rename_i hcase
    rcases hcase with hcase | hcase | hcase
    · omega
    · omega
    · have hnil := List.map_eq_nil_iff.mp hcase
      rw [PieceLayout.size, hnil] at hsize
      exact absurd hsize (Nat.lt_irrefl 0)
  · rw [← ((pieceCount_spec hpl).mp hcount).2] at hns
    have hlast : count.toNat - 1 < count.toNat := by omega
    have := countPieces_fits hns (List.mem_range.mpr hlast)
      (PieceMap.isSet_having.mpr ⟨PieceMap.ofNat_lt hlast, rfl⟩)
    rwa [← Nat.succ_mul, show (count.toNat - 1).succ = count.toNat by omega] at this

theorem filesDoneBytes_of_zero (hpl : l.pieceLength.toNat = 0) (p : UInt32 → Bool) :
    l.filesDoneBytes p = some (l.bounds.map fun _ => 0) := if_pos (.inl hpl)

/-- Without a piece length nothing is ever done. -/
theorem consistent_iff_of_zero {selected : Option (List Nat)} (hpl : l.pieceLength.toNat = 0)
    (hsize : l.size < 18446744073709551616) :
    l.Consistent selected ↔
      (selected = none → l.size = 0) ∧ ∀ s, selected = some s → l.Spans s := by
  have hzero : l.pieceLength = 0 := UInt64.toNat_inj.mp hpl
  obtain ⟨n, hn⟩ := Checked.exists_toNat hsize
  have hcount : l.pieceCount = some 0 := by
    rw [PieceLayout.pieceCount, totalLength_eq_some.mpr hn, Option.bind_eq_bind, Option.bind_some,
      if_pos hzero]
  have hdone {map : PieceMap} (hmap : map.count = 0) (wanted : Option PieceMap)
      (selected : Option (List Nat)) : l.doneBytesOf map wanted selected = some 0 := if_pos hmap
  have heach {map : PieceMap} (hmap : map.count = 0) : ∃ n ns, l.doneBytesOf map none none = some n ∧
      l.filesDoneBytes map.isSet = some ns ∧ n = total id ns := by
    refine ⟨0, _, hdone hmap none none, filesDoneBytes_of_zero hpl _,
      (Tiling.total_eq_zero.mpr fun n hn => ?_).symm⟩
    obtain ⟨b, -, rfl⟩ := List.mem_map.mp hn
    rfl
  cases selected with
  | none =>
    have hall {map : PieceMap} (hmap : map.count = 0) (hclean : map.Clean) :
        allWantedDone none map = true :=
      hclean.allDone_iff.mpr fun i hi => absurd (UInt32.lt_iff_toNat_lt.mp hi)
        (by rw [hmap]; exact Nat.not_lt_zero _)
    constructor
    · rintro ⟨count, hcount', wanted, hw, hagree⟩
      obtain rfl := Option.some.inj (hcount.symm.trans hcount')
      obtain rfl := Option.some.inj hw
      obtain ⟨n, hn, -, hiff⟩ := (hagree (.new 0) rfl (PieceMap.clean_new 0)).done
      obtain rfl := Option.some.inj ((hdone rfl none none).symm.trans hn)
      exact ⟨fun _ => (hiff.mpr (hall rfl (PieceMap.clean_new 0))).symm, fun _ h => by cases h⟩
    · rintro ⟨hempty, -⟩
      refine ⟨0, hcount, none, rfl, fun map hmap hclean => ⟨⟨0, hdone hmap _ _, Nat.zero_le _, ?_⟩,
        heach hmap, fun _ _ _ => hall hmap hclean⟩⟩
      exact ⟨fun _ => hall hmap hclean, fun _ => (hempty rfl).symm⟩
  | some s =>
    have hmask : l.wantedPieceMask (some s) = some (some (.new 0)) := by
      rw [PieceLayout.wantedPieceMask, hcount]
      rfl
    have hnot (map : PieceMap) : ¬ allWantedDone (some (.new 0)) map = true :=
      fun h => absurd h Bool.false_ne_true
    have hlength : 0 = l.selectedLength (some s) ↔ ∀ f, l.Selected s f → f.length.toNat = 0 := by
      have hsum := @selectedSum_eq_iff _ (fun _ => 0) (fun f : FileLayout => f.length.toNat)
        l.files s 0 fun f _ => Nat.zero_le _
      rw [selectedSum_zero 0 fun n hn => ?_] at hsum
      · refine hsum.trans ⟨?_, ?_⟩
        · rintro h f ⟨k, hk, hs⟩
          exact (h k f hk (by rwa [Nat.zero_add])).symm
        · exact fun h k f hk hs => (h f ⟨k, hk, by rwa [Nat.zero_add] at hs⟩).symm
      · obtain ⟨f, -, rfl⟩ := List.mem_map.mp hn
        rfl
    constructor
    · rintro ⟨count, hcount', wanted, hw, hagree⟩
      obtain rfl := Option.some.inj (hcount.symm.trans hcount')
      obtain rfl := Option.some.inj (hmask.symm.trans hw)
      obtain ⟨n, hn, -, hiff⟩ := (hagree (.new 0) rfl (PieceMap.clean_new 0)).done
      obtain rfl := Option.some.inj ((hdone rfl _ _).symm.trans hn)
      refine ⟨(fun h => by cases h), fun s' hs' => Option.some.inj hs' ▸
        ⟨?_, fun i f _ hlen hmeets => ?_⟩⟩
      · refine Classical.byContradiction fun hno =>
          hnot (.new 0) (hiff.mp (hlength.mpr fun f hf => ?_))
        exact Nat.eq_zero_of_not_pos fun hpos => hno ⟨f, hf, hpos⟩
      · obtain ⟨hlo, hhi⟩ := hmeets
        omega
    · rintro ⟨-, hspans⟩
      obtain ⟨f, hf, hpos⟩ := (hspans s rfl).bytes
      refine ⟨0, hcount, _, hmask, fun map hmap _ => ⟨⟨0, hdone hmap _ _, Nat.zero_le _, ?_⟩,
        heach hmap, fun ns hns hcomplete => ?_⟩⟩
      · refine ⟨fun h => ?_, fun h => absurd h (hnot map)⟩
        have := hlength.mp h f hf
        omega
      · obtain ⟨k, hk, hs⟩ := hf
        have hval := hcomplete k f hk fun s' hs' => Option.some.inj hs' ▸ hs
        rw [filesDoneBytes_of_zero hpl] at hns
        obtain rfl := Option.some.inj hns
        rw [List.getElem?_map, List.getElem?_map, hk] at hval
        have hlen : 0 = f.length.toNat := Option.some.inj hval
        omega

/-- The second file, without bytes, lies inside the first piece, between the first file and the
third. -/
def emptyInside : PieceLayout where
  pieceLength := 4
  files := [⟨["a"], 3, 0⟩, ⟨["b"], 0, 3⟩, ⟨["c"], 3, 3⟩, ⟨["d"], 2, 6⟩]
  multiFile := true

theorem emptyInside_new :
    PieceLayout.new 4 [(["a"], 3), (["b"], 0), (["c"], 3), (["d"], 2)] = some emptyInside := rfl

/-- The map of the second of two pieces. -/
def secondOnly : PieceMap := PieceMap.set (.new 2) 1

end PieceLayout

end XferRust.Storage
