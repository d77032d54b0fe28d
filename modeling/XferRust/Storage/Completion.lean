import XferRust.Lib.Counting
import XferRust.Storage.Serving

/-! # Progress and completion

Three computations say how far a selection of files has come: the mask of the pieces it wants, by
their segments; the lengths of its files; and the bytes of it that are done, by a cursor over files
and pieces.  Counted byte by byte they agree, but for files without bytes: one that lies inside a
piece makes that piece wanted, and one that lies elsewhere makes none wanted.
-/
namespace XferRust.Storage
open Tiling (total)
open Counting (tally)
open PieceLayout (Placed)

/-! ## Counting bits -/

/-- Bit number `k` of a bitfield. -/
def bitAt (bits : List UInt8) (k : Nat) : Bool :=
  match bits[k / 8]? with
  | none => false
  | some byte => byte &&& 0x80 >>> UInt8.ofNat (k % 8) != 0

/-- The mask of a bit follows from its place in its byte. -/
theorem bitMask_eq (i : UInt32) : bitMask i = 0x80 >>> UInt8.ofNat (i.toNat % 8) := by
  have hplace : (i % 8).toUInt8 = UInt8.ofNat (i.toNat % 8) := by
    refine UInt8.toNat_inj.mp ?_
    rw [UInt32.toNat_toUInt8, UInt32.toNat_mod, UInt8.toNat_ofNat']
    rfl
  rw [bitMask, hplace]

theorem hasBit_eq_bitAt (bits : List UInt8) (i : UInt32) : hasBit bits i = bitAt bits i.toNat := by
  unfold hasBit bitAt
  rw [bitMask_eq, UInt32.toNat_div]
  rfl

theorem bitAt_cons_add (b : UInt8) (bits : List UInt8) (k : Nat) :
    bitAt (b :: bits) (k + 8) = bitAt bits k := by
  unfold bitAt
  rw [show (k + 8) / 8 = k / 8 + 1 by omega, show (k + 8) % 8 = k % 8 by omega,
    List.getElem?_cons_succ]

/-- No bit is set in bytes that are zero. -/
theorem bitAt_replicate (n k : Nat) : bitAt (List.replicate n 0) k = false := by
  unfold bitAt
  rw [List.getElem?_replicate]
  split
  · rfl
  · rename_i byte hbyte
    split at hbyte
    · rw [← Option.some.inj hbyte, UInt8.zero_and]
      rfl
    · cases hbyte

/-- Setting a bit sets that one only. -/
theorem bitAt_modify {bits : List UInt8} {i : Nat} (hi : i / 8 < bits.length) (j : Nat) :
    bitAt (bits.modify (i / 8) fun byte => byte ||| 0x80 >>> UInt8.ofNat (i % 8)) j =
      (bitAt bits j || decide (j = i)) := by
  have hall : ∀ r < 8, ∀ q < 8,
      (0x80 : UInt8) >>> UInt8.ofNat r &&& (0x80 : UInt8) >>> UInt8.ofNat q =
        if r = q then (0x80 : UInt8) >>> UInt8.ofNat r else 0 := by decide
  have hne : ∀ q < 8, (0x80 : UInt8) >>> UInt8.ofNat q ≠ 0 := by decide
  have hmask := hall _ (Nat.mod_lt i (by decide)) _ (Nat.mod_lt j (by decide))
  unfold bitAt
  rw [List.getElem?_modify]
  by_cases hbyte : i / 8 = j / 8
  · rw [← hbyte, List.getElem?_eq_getElem hi]
    simp only [Option.map_eq_map, Option.map_some, if_true]
    rw [Word.or_and_distrib, hmask]
    by_cases heq : i % 8 = j % 8
    · obtain rfl : j = i := by omega
      have hbit :
          bits[j / 8] &&& 0x80 >>> UInt8.ofNat (j % 8) ||| 0x80 >>> UInt8.ofNat (j % 8) ≠ 0 :=
        fun h => hne _ (Nat.mod_lt j (by decide)) (UInt8.or_eq_zero_iff.mp h).2
      rw [if_pos rfl, bne_iff_ne.mpr hbit, decide_eq_true rfl, Bool.or_true]
    · rw [if_neg heq, UInt8.or_zero, decide_eq_false (by rintro rfl; exact heq rfl), Bool.or_false]
  · rw [decide_eq_false (by rintro rfl; exact hbyte rfl), Bool.or_false]
    cases bits[j / 8]? with
    | none => rfl
    | some byte => simp only [Option.map_eq_map, Option.map_some, if_neg hbyte]

/-- `count_ones`. -/
def countOnes (b : UInt8) : Nat := tally (fun r => b &&& 0x80 >>> UInt8.ofNat r != 0) 0 8

theorem total_countOnes (bits : List UInt8) :
    total countOnes bits = tally (bitAt bits) 0 (8 * bits.length) := by
  induction bits with
  | nil => rfl
  | cons b bits ih =>
    have hfirst : countOnes b = tally (bitAt (b :: bits)) 0 8 := by
      refine Counting.tally_congr fun r _ hr => ?_
      unfold bitAt
      rw [show r / 8 = 0 by omega, show r % 8 = r by omega]
      rfl
    have hrest : tally (bitAt bits) 0 (8 * bits.length) =
        tally (bitAt (b :: bits)) (0 + 8) (8 * bits.length) := by
      rw [← Counting.tally_shift]
      exact Counting.tally_congr fun k _ _ => (bitAt_cons_add b bits k).symm
    rw [Tiling.total_cons, ih, hfirst, hrest, List.length_cons,
      show 8 * (bits.length + 1) = 8 + 8 * bits.length by omega, Counting.tally_add]

namespace PieceMap

/-- The bits behind the last piece are zero. -/
def Clean (m : PieceMap) : Prop := ∀ k, m.count.toNat ≤ k → bitAt m.bits k = false

theorem clean_new (n : UInt32) : (new n).Clean := fun k _ => bitAt_replicate _ k

variable {m : PieceMap}

theorem Clean.set (h : m.Clean) (i : UInt32) : (m.set i).Clean := by
  by_cases hi : i < m.count
  · intro k hk
    rw [m.set_count] at hk
    have hlt := UInt32.lt_iff_toNat_lt.mp hi
    have hbyte : i.toNat / 8 < m.bits.length := by
      rw [m.size]
      omega
    rw [PieceMap.set, if_pos hi]
    show bitAt (m.bits.modify (i / 8).toNat fun byte => byte ||| bitMask i) k = false
    rw [bitMask_eq, show (i / 8).toNat = i.toNat / 8 from UInt32.toNat_div i 8, bitAt_modify hbyte,
      h k hk, decide_eq_false (show k ≠ i.toNat by omega), Bool.or_false]
  · rw [PieceMap.set, if_neg hi]
    exact h

theorem isSet_eq_bitAt {i : UInt32} (hi : i < m.count) : m.isSet i = bitAt m.bits i.toNat := by
  rw [isSet, if_neg (UInt32.not_le.mpr hi), hasBit_eq_bitAt]

/-- `done_count`. -/
def doneCount (m : PieceMap) : Nat := min (total countOnes m.bits) m.count.toNat

/-- `all_done`. -/
def allDone (m : PieceMap) : Bool := m.doneCount == m.count.toNat

theorem Clean.doneCount (h : m.Clean) : m.doneCount = tally (bitAt m.bits) 0 m.count.toNat := by
  have hsize := m.size
  have hrest : tally (bitAt m.bits) (0 + m.count.toNat) (8 * m.bits.length - m.count.toNat) = 0 :=
    Counting.tally_eq_zero.mpr fun k hlo _ => h k (by omega)
  have hle := Counting.tally_le (bitAt m.bits) 0 m.count.toNat
  rw [PieceMap.doneCount, total_countOnes,
    show 8 * m.bits.length = m.count.toNat + (8 * m.bits.length - m.count.toNat) by omega,
    Counting.tally_add, hrest]
  omega

theorem ofNat_lt {n : UInt32} {k : Nat} (h : k < n.toNat) : UInt32.ofNat k < n := by
  have := n.toNat_lt
  rw [UInt32.lt_iff_toNat_lt, UInt32.toNat_ofNat', Nat.mod_eq_of_lt (by omega)]
  exact h

theorem toNat_ofNat {n : UInt32} {k : Nat} (h : k < n.toNat) : (UInt32.ofNat k).toNat = k := by
  have := n.toNat_lt
  rw [UInt32.toNat_ofNat', Nat.mod_eq_of_lt (by omega)]

/-- **All is done** when each bit is set. -/
theorem Clean.allDone_iff (h : m.Clean) :
    m.allDone = true ↔ ∀ i, i < m.count → m.isSet i = true := by
  rw [allDone, beq_iff_eq, h.doneCount, Counting.tally_eq_iff]
  constructor
  · intro hall i hi
    rw [isSet_eq_bitAt hi]
    exact hall i.toNat (Nat.zero_le _) (by rw [Nat.zero_add]; exact UInt32.lt_iff_toNat_lt.mp hi)
  · intro hall k _ hk
    rw [Nat.zero_add] at hk
    have hlt := ofNat_lt hk
    have := hall _ hlt
    have hcount := m.count.toNat_lt
    rwa [isSet_eq_bitAt hlt, UInt32.toNat_ofNat', Nat.mod_eq_of_lt (by omega)] at this

theorem Clean.doneCount_eq_zero (h : m.Clean) : m.doneCount = 0 ↔ ∀ i, m.isSet i = false := by
  rw [h.doneCount, Counting.tally_eq_zero]
  constructor
  · intro hnone i
    by_cases hi : i < m.count
    · rw [isSet_eq_bitAt hi]
      exact hnone _ (Nat.zero_le _) (by rw [Nat.zero_add]; exact UInt32.lt_iff_toNat_lt.mp hi)
    · rw [isSet, if_pos (UInt32.not_lt.mp hi)]
  · intro hnone k _ hk
    rw [Nat.zero_add] at hk
    have hcount := m.count.toNat_lt
    have := hnone (UInt32.ofNat k)
    rwa [isSet_eq_bitAt (ofNat_lt hk), UInt32.toNat_ofNat', Nat.mod_eq_of_lt (by omega)] at this

end PieceMap

/-! ## The selection -/

/-- The numbers of all pieces. -/
def indices (count : UInt32) : List UInt32 := (List.range count.toNat).map UInt32.ofNat

theorem mem_indices {count i : UInt32} : i ∈ indices count ↔ i < count := by
  rw [indices, List.mem_map]
  constructor
  · rintro ⟨k, hk, rfl⟩
    exact PieceMap.ofNat_lt (List.mem_range.mp hk)
  · intro hi
    exact ⟨i.toNat, List.mem_range.mpr (UInt32.lt_iff_toNat_lt.mp hi), UInt32.ofNat_toNat⟩

/-- The sum over the elements whose number is selected, from number `i` on. -/
def selectedSum (selected : List Nat) : Nat → List Nat → Nat
  | _, [] => 0
  | i, x :: xs =>
    if selected.contains i then x + selectedSum selected (i + 1) xs
    else selectedSum selected (i + 1) xs

namespace PieceLayout

/-- The loop of `wanted_piece_mask`. -/
def markWanted (l : PieceLayout) (selected : List Nat) :
    PieceMap → List UInt32 → Option PieceMap
  | m, [] => some m
  | m, idx :: rest => do
    let segs ← l.pieceSegments idx
    markWanted l selected
      (if segs.any fun seg => selected.contains seg.file then m.set idx else m) rest

/-- `wanted_piece_mask`; without a selection there is no mask. -/
def wantedPieceMask (l : PieceLayout) (selected : Option (List Nat)) :
    Option (Option PieceMap) :=
  match selected with
  | none => some none
  | some selected => do
    let count ← l.pieceCount
    let m ← markWanted l selected (.new count) (indices count)
    some (some m)

/-- `selected_length`. -/
def selectedLength (l : PieceLayout) (selected : Option (List Nat)) : Nat :=
  match selected with
  | none => l.size
  | some selected => selectedSum selected 0 (l.files.map fun f => f.length.toNat)

/-- The cursor of `files_done_bytes` moves over the files that end before the piece. -/
def advance (pStart : Nat) (bounds : List (Nat × Nat)) (fi : Nat) : Nat :=
  fi + ((bounds.drop fi).takeWhile fun b => b.1 + b.2 ≤ pStart).length

/-- What a piece adds to the files from the cursor on. -/
def addParts (pStart pEnd : Nat) : List (Nat × Nat) → List Nat → List Nat
  | b :: bounds, x :: out =>
    if b.1 < pEnd then
      (x + (min pEnd (b.1 + b.2) - max pStart b.1)) :: addParts pStart pEnd bounds out
    else x :: out
  | _, out => out

/-- The loop of `files_done_bytes`, with the cursor and the bytes of each file so far.  A sum of
the source that overflows is nothing here. -/
def countPieces (pieceLength size : Nat) (bounds : List (Nat × Nat)) (have_ : UInt32 → Bool) :
    List Nat → Nat → List Nat → Option (List Nat)
  | [], _, out => some out
  | i :: rest, fi, out =>
    if have_ (UInt32.ofNat i) then
      let pStart := i * pieceLength
      if 18446744073709551616 ≤ pStart + pieceLength then none
      else
        let pEnd := min (pStart + pieceLength) size
        let fi := advance pStart bounds fi
        countPieces pieceLength size bounds have_ rest fi
          (out.take fi ++ addParts pStart pEnd (bounds.drop fi) (out.drop fi))
    else countPieces pieceLength size bounds have_ rest fi out

/-- `files_done_bytes`. -/
def filesDoneBytes (l : PieceLayout) (have_ : UInt32 → Bool) : Option (List Nat) :=
  let bounds := l.files.map fun f => (f.offset.toNat, f.length.toNat)
  let out := bounds.map fun _ => 0
  if l.pieceLength.toNat = 0 ∨ l.size = 0 ∨ bounds = [] then some out
  else
    countPieces l.pieceLength.toNat l.size bounds have_
      (List.range (Checked.ceilDiv l.size l.pieceLength.toNat)) 0 out

/-- `saturating_sub(1)`. -/
def lastIndex (count : UInt32) : UInt32 := if count = 0 then 0 else count - 1

/-- The length of a piece: all but the last one have the piece length. -/
def lengthOf (l : PieceLayout) (last idx : UInt32) : Option UInt64 :=
  if idx = last then l.pieceLen idx else some l.pieceLength

/-- The lengths of the pieces with `p`, added up. -/
def lengthsFrom (l : PieceLayout) (last : UInt32) (p : UInt32 → Bool) :
    UInt64 → List UInt32 → Option UInt64
  | sum, [] => some sum
  | sum, idx :: rest =>
    if p idx then do
      let n ← l.lengthOf last idx
      let sum ← Checked.add sum n
      lengthsFrom l last p sum rest
    else lengthsFrom l last p sum rest

/-- `done_bytes_of`, for a store with this layout and map. -/
def doneBytesOf (l : PieceLayout) (map : PieceMap) (wanted : Option PieceMap)
    (selected : Option (List Nat)) : Option Nat :=
  let have_ (i : UInt32) : Bool := (wanted.elim true fun m => m.isSet i) && map.isSet i
  if map.count = 0 then some 0
  else
    match selected with
    | none =>
      (lengthsFrom l (lastIndex map.count) have_ 0 (indices map.count)).map UInt64.toNat
    | some selected => (filesDoneBytes l have_).map (selectedSum selected 0)

end PieceLayout

/-- `all_wanted_done_with`, for a store with this map. -/
def allWantedDone (wanted : Option PieceMap) (map : PieceMap) : Bool :=
  match wanted with
  | none => map.allDone
  | some m =>
    if m.doneCount = 0 then false else (indices m.count).all fun i => !m.isSet i || map.isSet i

namespace PieceLayout

/-! ## Byte by byte -/

/-- A layout as it is built, with so many pieces. -/
structure Counted (l : PieceLayout) (count : UInt32) : Prop where
  placed : Placed 0 l.files
  size : l.size < 18446744073709551616
  length : 0 < l.pieceLength.toNat
  starts : ∀ i, i < count.toNat ↔ i * l.pieceLength.toNat < l.size

variable {l : PieceLayout} {count : UInt32}

theorem Counted.toNat (h : l.Counted count) {g : Nat} (hg : g < l.size) :
    (UInt32.ofNat (g / l.pieceLength.toNat)).toNat =
      g / l.pieceLength.toNat := by
  have hlt := (h.starts (g / l.pieceLength.toNat)).mpr
    (Nat.lt_of_le_of_lt (Nat.div_mul_le_self g _) hg)
  have := count.toNat_lt
  rw [UInt32.toNat_ofNat', Nat.mod_eq_of_lt (by omega)]

/-- The piece of a byte is one of the pieces. -/
theorem Counted.lt (h : l.Counted count) {g : Nat} (hg : g < l.size) :
    UInt32.ofNat (g / l.pieceLength.toNat) < count := by
  rw [UInt32.lt_iff_toNat_lt, h.toNat hg]
  exact (h.starts _).mpr (Nat.lt_of_le_of_lt (Nat.div_mul_le_self g _) hg)

/-- The bytes of one piece have its number. -/
theorem div_eq_of_mem {pl a g : Nat} (hlo : a * pl ≤ g) (hhi : g < a * pl + pl) : g / pl = a :=
  Nat.div_eq_of_lt_le hlo (by rw [Nat.succ_mul]; exact hhi)

/-- A byte is done when its piece is. -/
def doneByte (l : PieceLayout) (p : UInt32 → Bool) (g : Nat) : Bool :=
  p (UInt32.ofNat (g / l.pieceLength.toNat))

theorem lastIndex_spec (h : 0 < count.toNat) : (lastIndex count).toNat + 1 = count.toNat := by
  have hne : count ≠ 0 := by
    rintro rfl
    exact absurd h (Nat.lt_irrefl 0)
  have hle : (1 : UInt32) ≤ count := UInt32.le_iff_toNat_le.mpr h
  rw [lastIndex, if_neg hne, UInt32.toNat_sub_of_le _ _ hle, show (1 : UInt32).toNat = 1 from rfl]
  omega

/-- **The lengths of pieces** come to the bytes in them. -/
theorem Counted.lengthsFrom (h : l.Counted count) (p : UInt32 → Bool) :
    ∃ sum, l.lengthsFrom (lastIndex count) p 0 (indices count) = some sum ∧
      sum.toNat = tally (l.doneByte p) 0 l.size := by
  have hcount := count.toNat_lt
  have hsize := h.size
  obtain ⟨size, htotal⟩ := Checked.exists_toNat hsize
  have htotal := totalLength_eq_some.mpr htotal
  -- the bytes of the pieces before number `a` have been added
  have key : ∀ n a acc, a + n = count.toNat → acc.toNat = tally (l.doneByte p) 0
      (min (a * l.pieceLength.toNat) l.size) → ∃ sum, l.lengthsFrom (lastIndex count) p acc
        ((List.range' a n).map UInt32.ofNat) = some sum ∧
        sum.toNat = tally (l.doneByte p) 0 l.size := by
    intro n
    induction n with
    | zero =>
      intro a acc hn hacc
      have := mt (h.starts a).mpr (by omega)
      rw [Nat.min_eq_right (by omega)] at hacc
      exact ⟨acc, rfl, hacc⟩
    | succ n ih =>
      intro a acc hn hacc
      have hidx : (UInt32.ofNat a).toNat = a := by
        rw [UInt32.toNat_ofNat', Nat.mod_eq_of_lt (by omega)]
      have hstart := (h.starts a).mp (by omega)
      rw [Nat.min_eq_left (by omega)] at hacc
      have hend := @lastIndex_spec count (by omega)
      have hle := Counting.tally_le (l.doneByte p) 0 (a * l.pieceLength.toNat)
      -- the bytes of the piece
      let next := min ((a + 1) * l.pieceLength.toNat) l.size
      have hnext : next = min (a * l.pieceLength.toNat + l.pieceLength.toNat) l.size := by
        rw [← Nat.succ_mul]
      have hsplit := Counting.tally_add (l.doneByte p) 0 (a * l.pieceLength.toNat)
        (next - a * l.pieceLength.toNat)
      rw [show a * l.pieceLength.toNat + (next - a * l.pieceLength.toNat) = next by omega,
        Nat.zero_add] at hsplit
      have hpiece : ∀ g, a * l.pieceLength.toNat ≤ g →
          g < a * l.pieceLength.toNat + (next - a * l.pieceLength.toNat) →
          l.doneByte p g = p (UInt32.ofNat a) := fun g hlo hhi => by
        rw [doneByte, div_eq_of_mem hlo (by omega)]
      rw [List.range'_succ, List.map_cons, PieceLayout.lengthsFrom]
      by_cases hp : p (UInt32.ofNat a) = true
      · have hall := Counting.tally_eq_iff.mpr fun g hlo hhi => (hpiece g hlo hhi).trans hp
        rw [hall] at hsplit
        rw [if_pos hp]
        obtain ⟨len, hlen, hval⟩ : ∃ len : UInt64,
            l.lengthOf (lastIndex count) (UInt32.ofNat a) = some len ∧
            len.toNat = next - a * l.pieceLength.toNat := by
          by_cases hlast : UInt32.ofNat a = lastIndex count
          · obtain ⟨m, hm⟩ := @exists_pieceLenIn size l.pieceLength (UInt32.ofNat a)
              (by rw [hidx]; omega)
            rw [← htotal] at hm
            have hm' := pieceLen_eq_some (l := l) hm
            unfold pieceSize at hm'
            rw [hidx] at hm'
            exact ⟨m, (if_pos hlast).trans hm, by omega⟩
          · -- the piece is whole, as another one comes after it
            have hlt : a + 1 < count.toNat := by
              refine Nat.lt_of_le_of_ne (by omega) fun heq => hlast (UInt32.toNat_inj.mp ?_)
              rw [hidx]
              omega
            have := (h.starts (a + 1)).mp hlt
            rw [Nat.succ_mul] at this
            exact ⟨_, if_neg hlast, by omega⟩
        obtain ⟨sum, hsum, hsumval⟩ := @Checked.exists_add acc len (by omega)
        simp only [hlen, hsum, Option.bind_eq_bind, Option.bind_some]
        exact ih (a + 1) sum (by omega) (by show sum.toNat = tally (l.doneByte p) 0 next; omega)
      · have hnone := Counting.tally_eq_zero.mpr fun g hlo hhi =>
          (hpiece g hlo hhi).trans (Bool.eq_false_iff.mpr hp)
        rw [hnone] at hsplit
        rw [if_neg hp]
        exact ih (a + 1) acc (by omega) (by show acc.toNat = tally (l.doneByte p) 0 next; omega)
  obtain ⟨sum, hsum, hval⟩ := key count.toNat 0 0 (Nat.zero_add _) (by
    rw [Nat.zero_mul, Nat.zero_min]
    rfl)
  rw [← List.range_eq_range'] at hsum
  exact ⟨sum, hsum, hval⟩

/-- The files as pairs of offset and length. -/
abbrev bounds (l : PieceLayout) : List (Nat × Nat) :=
  l.files.map fun f => (f.offset.toNat, f.length.toNat)

theorem Placed.bounds_pairwise {lo : Nat} {files : List FileLayout} (h : Placed lo files) :
    (files.map fun f => (f.offset.toNat, f.length.toNat)).Pairwise fun a b => a.1 + a.2 ≤ b.1 := by
  induction files generalizing lo with
  | nil => exact List.Pairwise.nil
  | cons f files ih =>
    obtain ⟨hoff, hplaced⟩ := h
    refine List.pairwise_cons.mpr ⟨fun b hb => ?_, ih hplaced⟩
    obtain ⟨f', hf', rfl⟩ := List.mem_map.mp hb
    obtain ⟨k, hk⟩ := List.getElem?_of_mem hf'
    have := (hplaced.bounds hk).1
    show f.offset.toNat + f.length.toNat ≤ f'.offset.toNat
    omega

/-- An operation that leaves each element of the second list as it is. -/
theorem zipWith_keeps {α β : Type} {f : α → β → β} {xs : List α} {ys : List β}
    (hlen : ys.length = xs.length) (h : ∀ x ∈ xs, ∀ y, f x y = y) : List.zipWith f xs ys = ys := by
  induction xs generalizing ys with
  | nil =>
    rw [List.length_eq_zero_iff.mp hlen]
    rfl
  | cons x xs ih =>
    cases ys with
    | nil => cases hlen
    | cons y ys =>
      rw [List.zipWith_cons_cons, h x List.mem_cons_self,
        ih (Nat.succ.inj hlen) fun x hx => h x (List.mem_cons_of_mem _ hx)]

theorem addParts_eq {pStart pEnd : Nat} {bounds : List (Nat × Nat)} {out : List Nat}
    (hlen : out.length = bounds.length) (h : bounds.Pairwise fun a b => a.1 + a.2 ≤ b.1) :
    addParts pStart pEnd bounds out =
      List.zipWith (fun b x => x + (min pEnd (b.1 + b.2) - max pStart b.1)) bounds out := by
  induction bounds generalizing out with
  | nil =>
    rw [List.length_eq_zero_iff.mp hlen]
    rfl
  | cons b bounds ih =>
    cases out with
    | nil => cases hlen
    | cons x out =>
      obtain ⟨hfirst, hrest⟩ := List.pairwise_cons.mp h
      have hlen : out.length = bounds.length := Nat.succ.inj hlen
      rw [addParts, List.zipWith_cons_cons]
      split
      · rw [ih hlen hrest]
      · -- the piece ends before this file, and before all that come after it
        have hzero := zipWith_keeps (f := fun (b : Nat × Nat) x =>
            x + (min pEnd (b.1 + b.2) - max pStart b.1)) hlen fun b' hb' y => by
          have := hfirst b' hb'
          omega
        rw [hzero, show min pEnd (b.1 + b.2) - max pStart b.1 = 0 by omega]
        rfl

theorem advance_spec {pStart fi : Nat} {bounds : List (Nat × Nat)}
    (h : ∀ b ∈ bounds.take fi, b.1 + b.2 ≤ pStart) :
    ∀ b ∈ bounds.take (advance pStart bounds fi), b.1 + b.2 ≤ pStart := by
  intro b hb
  rw [advance, List.take_add] at hb
  rcases List.mem_append.mp hb with hb | hb
  · exact h b hb
  · rw [← List.prefix_iff_eq_take.mp (List.takeWhile_prefix _)] at hb
    exact of_decide_eq_true (List.all_eq_true.mp List.all_takeWhile b hb)

/-- What a piece adds, it adds to each file that it meets. -/
theorem addParts_take_drop {pStart pEnd fi : Nat} {bounds : List (Nat × Nat)} {out : List Nat}
    (hlen : out.length = bounds.length) (h : bounds.Pairwise fun a b => a.1 + a.2 ≤ b.1)
    (hbefore : ∀ b ∈ bounds.take fi, b.1 + b.2 ≤ pStart) :
    out.take fi ++ addParts pStart pEnd (bounds.drop fi) (out.drop fi) =
      List.zipWith (fun b x => x + (min pEnd (b.1 + b.2) - max pStart b.1)) bounds out := by
  rw [addParts_eq (by rw [List.length_drop, List.length_drop, hlen])
    (h.sublist (List.drop_sublist _ _)), ← List.drop_zipWith]
  have htake : (List.zipWith (fun b x => x + (min pEnd (b.1 + b.2) - max pStart b.1)) bounds
      out).take fi = out.take fi := by
    rw [List.take_zipWith]
    refine zipWith_keeps (by rw [List.length_take, List.length_take, hlen]) fun b hb y => ?_
    have := hbefore b hb
    omega
  rw [← htake, List.take_append_drop]

/-- The bytes that are done among those before number `n`. -/
def doneBefore (l : PieceLayout) (p : UInt32 → Bool) (n g : Nat) : Bool :=
  decide (g < n) && l.doneByte p g

/-- The bytes of a file that the next piece adds. -/
theorem tally_doneBefore_succ {p : UInt32 → Bool} (a : Nat) {lo len : Nat}
    (hin : lo + len ≤ l.size) :
    tally (l.doneBefore p ((a + 1) * l.pieceLength.toNat)) lo len =
      tally (l.doneBefore p (a * l.pieceLength.toNat)) lo len +
        if p (UInt32.ofNat a) then
          min (min (a * l.pieceLength.toNat + l.pieceLength.toNat) l.size) (lo + len) -
            max (a * l.pieceLength.toNat) lo
        else 0 := by
  have hpiece : ∀ g, a * l.pieceLength.toNat ≤ g →
      g < a * l.pieceLength.toNat + l.pieceLength.toNat →
      l.doneByte p g = p (UInt32.ofNat a) := fun g hlo hhi => by
    rw [doneByte, div_eq_of_mem hlo hhi]
  by_cases hp : p (UInt32.ofNat a) = true
  · rw [if_pos hp, ← Counting.tally_between, ← Counting.tally_or]
    · refine Counting.tally_congr fun g _ hg => ?_
      by_cases hlt : g < a * l.pieceLength.toNat
      · rw [doneBefore, doneBefore, decide_eq_true hlt,
          decide_eq_true (by rw [Nat.succ_mul]; omega),
          decide_eq_false (Nat.not_le.mpr hlt), Bool.false_and, Bool.or_false]
      · by_cases hnext : g < a * l.pieceLength.toNat + l.pieceLength.toNat
        · rw [doneBefore, doneBefore, decide_eq_false hlt,
            decide_eq_true (by rw [Nat.succ_mul]; exact hnext),
            hpiece g (by omega) hnext, hp, decide_eq_true (by omega),
            decide_eq_true (by omega)]
          rfl
        · rw [doneBefore, doneBefore, decide_eq_false hlt,
            decide_eq_false (by rw [Nat.succ_mul]; exact hnext),
            decide_eq_false (p := g < min _ _) (by omega), Bool.and_false]
          rfl
    · rintro g - - ⟨hold, hnew⟩
      rw [doneBefore, Bool.and_eq_true, decide_eq_true_eq] at hold
      rw [Bool.and_eq_true, decide_eq_true_eq] at hnew
      omega
  · rw [if_neg hp, Nat.add_zero]
    refine Counting.tally_congr fun g _ _ => ?_
    by_cases hin' : a * l.pieceLength.toNat ≤ g ∧
        g < a * l.pieceLength.toNat + l.pieceLength.toNat
    · rw [doneBefore, doneBefore, hpiece g hin'.1 hin'.2, Bool.eq_false_iff.mpr hp,
        Bool.and_false, Bool.and_false]
    · rw [doneBefore, doneBefore, Nat.succ_mul]
      congr 1
      refine decide_eq_decide.mpr ?_
      omega

theorem mem_bounds_le (hl : Placed 0 l.files) {b : Nat × Nat} (hb : b ∈ l.bounds) :
    b.1 + b.2 ≤ l.size := by
  obtain ⟨f, hf, rfl⟩ := List.mem_map.mp hb
  obtain ⟨k, hk⟩ := List.getElem?_of_mem hf
  have := (hl.bounds hk).2
  rwa [Nat.zero_add] at this

/-- The loop, where the ends of the pieces that are done fit. -/
theorem countPieces_spec {p : UInt32 → Bool} (hl : Placed 0 l.files) {n a fi : Nat}
    (hend : l.size ≤ (a + n) * l.pieceLength.toNat)
    (hfit : ∀ i, a ≤ i → i < a + n → p (UInt32.ofNat i) = true →
      i * l.pieceLength.toNat + l.pieceLength.toNat < 18446744073709551616)
    (hbefore : ∀ b ∈ l.bounds.take fi, b.1 + b.2 ≤ a * l.pieceLength.toNat) :
    countPieces l.pieceLength.toNat l.size l.bounds p (List.range' a n) fi
      (l.bounds.map fun b => tally (l.doneBefore p (a * l.pieceLength.toNat)) b.1 b.2) =
        some (l.bounds.map fun b => tally (l.doneByte p) b.1 b.2) := by
  induction n generalizing a fi with
  | zero =>
    refine congrArg some (List.map_congr_left fun b hb => Counting.tally_congr fun g _ hg => ?_)
    have := mem_bounds_le hl hb
    rw [doneBefore, decide_eq_true (by rw [Nat.add_zero] at hend; omega), Bool.true_and]
  | succ n ih =>
    have ih := fun fi => @ih (a + 1) fi (by rwa [Nat.add_right_comm])
      fun i hlo hhi => hfit i (by omega) (by omega)
    rw [List.range'_succ, countPieces]
    split
    · rename_i hp
      have hlt := hfit a (Nat.le_refl a) (by omega) hp
      dsimp only
      rw [if_neg (by omega), addParts_take_drop (by rw [List.length_map])
        hl.bounds_pairwise (advance_spec hbefore)]
      rw [← ih _ fun b hb => Nat.le_trans (advance_spec hbefore b hb) (by rw [Nat.succ_mul]; omega)]
      congr 1
      rw [List.zipWith_map_right, List.zipWith_self]
      refine List.map_congr_left fun b hb => ?_
      rw [tally_doneBefore_succ a (mem_bounds_le hl hb), if_pos hp]
    · rename_i hp
      rw [← ih fi fun b hb => Nat.le_trans (hbefore b hb) (by rw [Nat.succ_mul]; omega)]
      congr 1
      refine List.map_congr_left fun b hb => ?_
      rw [tally_doneBefore_succ a (mem_bounds_le hl hb), if_neg hp, Nat.add_zero]

/-- What the loop gives, whatever number of pieces there is. -/
theorem filesDoneBytes_of_fit (hl : Placed 0 l.files) (hpl : 0 < l.pieceLength.toNat)
    {p : UInt32 → Bool}
    (hfit : ∀ i, i < Checked.ceilDiv l.size l.pieceLength.toNat → p (UInt32.ofNat i) = true →
      i * l.pieceLength.toNat + l.pieceLength.toNat < 18446744073709551616) :
    l.filesDoneBytes p = some (l.bounds.map fun b => tally (l.doneByte p) b.1 b.2) := by
  rw [PieceLayout.filesDoneBytes]
  split
  · rename_i hzero
    refine congrArg some (List.map_congr_left fun b hb => ?_)
    obtain ⟨f, hf, rfl⟩ := List.mem_map.mp hb
    have hlen : f.length.toNat = 0 := by
      rcases hzero with hzero | hzero | hzero
      · omega
      · exact Tiling.total_eq_zero.mp hzero f hf
      · rw [hzero] at hb
        cases hb
    show 0 = tally (l.doneByte p) f.offset.toNat f.length.toNat
    rw [hlen]
    rfl
  · have hend : l.size ≤ Checked.ceilDiv l.size l.pieceLength.toNat * l.pieceLength.toNat :=
      Nat.le_of_not_lt (mt (Checked.lt_ceilDiv_iff hpl).mpr (Nat.lt_irrefl _))
    have hzero : (l.bounds.map fun _ => 0) =
        l.bounds.map fun b => tally (l.doneBefore p (0 * l.pieceLength.toNat)) b.1 b.2 := by
      refine List.map_congr_left fun b _ => (Counting.tally_eq_zero.mpr fun g _ _ => ?_).symm
      rw [doneBefore, decide_eq_false (by omega), Bool.false_and]
    rw [List.range_eq_range', hzero]
    refine countPieces_spec hl (by rwa [Nat.zero_add]) (fun i _ hi => hfit i (by omega)) ?_
    intro b hb
    cases hb

/-- The count is that of the pieces that the files fill. -/
theorem Counted.ceilDiv (h : l.Counted count) :
    Checked.ceilDiv l.size l.pieceLength.toNat = count.toNat := by
  refine Nat.le_antisymm ?_ ?_
  · exact Nat.le_of_not_lt fun hlt => by
      have := (h.starts _).mpr ((Checked.lt_ceilDiv_iff h.length).mp hlt)
      omega
  · exact Nat.le_of_not_lt fun hlt => by
      have := (Checked.lt_ceilDiv_iff h.length).mpr ((h.starts _).mp hlt)
      omega

/-- **The bytes of each file** that are done. -/
theorem Counted.filesDoneBytes (h : l.Counted count)
    (hfit : count.toNat * l.pieceLength.toNat < 18446744073709551616) (p : UInt32 → Bool) :
    l.filesDoneBytes p = some (l.bounds.map fun b => tally (l.doneByte p) b.1 b.2) := by
  refine filesDoneBytes_of_fit h.placed h.length fun i hi _ => ?_
  have hle := Nat.mul_le_mul_right l.pieceLength.toNat (show i + 1 ≤ count.toNat by
    rw [h.ceilDiv] at hi
    exact hi)
  rw [Nat.succ_mul] at hle
  omega

end PieceLayout

end XferRust.Storage
