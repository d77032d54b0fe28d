import XferRust.Lib.Counting
import XferRust.Lib.Hex
import XferRust.Lib.Word

/-! # The bitmap of an SFTP download

A download is cut into pieces of 1 MiB, the last one shorter.  The bitmap has one bit for each
piece, from the lowest bit of the first byte on, and counts the bits that are set.  `Bitmap.Sound`
is what the constructors make and `mark` keeps; every count and every sum below is read off
`isDone` through it.
-/
namespace XferRust.Sftp.Download
open Counting (tally)

/-- `PIECE_LEN` -/
def pieceLen : Nat := 1048576

/-- `total.div_ceil(PIECE_LEN)` -/
def piecesOf (total : Nat) : Nat := (total + (pieceLen - 1)) / pieceLen

/-- The length of a piece. -/
def pieceSize (total idx : Nat) : Nat := min (total - idx * pieceLen) pieceLen

structure Bitmap where
  bits : List UInt8
  pieces : Nat
  done : Nat
deriving DecidableEq

namespace Bitmap

/-- The bytes for so many bits. -/
def bytesFor (pieces : Nat) : Nat := (pieces + 7) / 8

def mask (idx : Nat) : UInt8 := 1 <<< UInt8.ofNat (idx % 8)

def new (total : Nat) : Bitmap :=
  { bits := List.replicate (bytesFor (piecesOf total)) 0, pieces := piecesOf total, done := 0 }

/-- `is_done`; of a piece there is, the byte is there. -/
def isDone (b : Bitmap) (idx : Nat) : Bool :=
  decide (idx < b.pieces) && b.bits[idx / 8]?.getD 0 &&& mask idx != 0

/-- `from_hex`.  The bits behind the last piece are cleared. -/
def fromHex (hex : String) (pieces : Nat) : Option Bitmap :=
  (Hex.decode hex).bind fun bytes =>
    if bytes.length ≠ bytesFor pieces then none
    else
      let bits :=
        if pieces % 8 ≠ 0 then
          bytes.modify (bytes.length - 1) fun last => last &&& (mask pieces - 1)
        else bytes
      let b : Bitmap := { bits, pieces, done := 0 }
      some { b with done := tally b.isDone 0 pieces }

def toHex (b : Bitmap) : String := Hex.encode b.bits

/-- `mark`; false of a piece that was marked before. -/
def mark (b : Bitmap) (idx : Nat) : Bitmap × Bool :=
  if b.pieces ≤ idx then (b, false)
  else if b.bits[idx / 8]?.getD 0 &&& mask idx ≠ 0 then (b, false)
  else
    ({ b with bits := b.bits.modify (idx / 8) fun byte => byte ||| mask idx, done := b.done + 1 },
      true)

def isComplete (b : Bitmap) : Bool := b.done = b.pieces

/-- `done_bytes`: the last piece counts with the length that it has. -/
def doneBytes (b : Bitmap) (total : Nat) : Nat :=
  if b.pieces = 0 then 0
  else
    Tiling.total
      (fun i => if i + 1 = b.pieces then total - (b.pieces - 1) * pieceLen else pieceLen)
      ((List.range b.pieces).filter b.isDone)

/-- There is a byte for every bit, and the count is right. -/
structure Sound (b : Bitmap) : Prop where
  size : b.bits.length = bytesFor b.pieces
  done : b.done = tally b.isDone 0 b.pieces

/-! ## Bits -/

theorem mask_ne_zero (idx : Nat) : mask idx ≠ 0 := by
  have hall : ∀ k < 8, (1 : UInt8) <<< UInt8.ofNat k ≠ 0 := by decide
  exact hall (idx % 8) (Nat.mod_lt idx (by decide))

/-- Two masks are the same or have no bit in common. -/
theorem mask_and_mask {i j : Nat} (h : i % 8 ≠ j % 8) : mask i &&& mask j = 0 := by
  have hall : ∀ k < 8, ∀ l < 8, k ≠ l →
      (1 : UInt8) <<< UInt8.ofNat k &&& (1 : UInt8) <<< UInt8.ofNat l = 0 := by decide
  exact hall (i % 8) (Nat.mod_lt i (by decide)) (j % 8) (Nat.mod_lt j (by decide)) h

/-- The bits below one are those that the next lower mask leaves. -/
theorem low_and_mask {i j : Nat} (h : j % 8 < i % 8) : (mask i - 1) &&& mask j = mask j := by
  have hall : ∀ k < 8, ∀ l < k,
      ((1 : UInt8) <<< UInt8.ofNat k - (1 : UInt8)) &&& (1 : UInt8) <<< UInt8.ofNat l =
        (1 : UInt8) <<< UInt8.ofNat l := by decide
  exact hall (i % 8) (Nat.mod_lt i (by decide)) (j % 8) h

variable {b : Bitmap} {idx : Nat}

theorem isDone_lt (h : b.isDone idx = true) : idx < b.pieces :=
  of_decide_eq_true (Bool.and_eq_true_iff.mp h).1

theorem isDone_new (total idx : Nat) : (new total).isDone idx = false := by
  have hbyte : ((new total).bits[idx / 8]?).getD 0 = 0 := by
    rw [new, List.getElem?_replicate]
    split <;> rfl
  rw [isDone, hbyte, UInt8.zero_and]
  exact Bool.and_false _

theorem sound_new (total : Nat) : (new total).Sound where
  size := List.length_replicate
  done := (Counting.tally_eq_zero.mpr fun g _ _ => isDone_new total g).symm

theorem mark_snd : (b.mark idx).2 = true ↔ idx < b.pieces ∧ b.isDone idx = false := by
  unfold mark
  split
  · rename_i hle
    exact iff_of_false (by simp) fun h => absurd h.1 (Nat.not_lt.mpr hle)
  · rename_i hlt
    have hlt : idx < b.pieces := Nat.lt_of_not_le hlt
    split
    · rename_i hbit
      refine iff_of_false (by simp) fun h => ?_
      rw [isDone, decide_eq_true hlt, Bool.true_and, bne_eq_false_iff_eq] at h
      exact hbit h.2
    · rename_i hbit
      refine iff_of_true rfl ⟨hlt, ?_⟩
      rw [isDone, decide_eq_true hlt, Bool.true_and, bne_eq_false_iff_eq]
      exact Decidable.not_not.mp hbit

theorem pieces_mark (b : Bitmap) (idx : Nat) : (b.mark idx).1.pieces = b.pieces := by
  unfold mark
  split
  · rfl
  · split <;> rfl

theorem mark_of_not_new (h : (b.mark idx).2 = false) : (b.mark idx).1 = b := by
  unfold mark at h ⊢
  split
  · rfl
  · rename_i hlt
    rw [if_neg hlt] at h
    split
    · rfl
    · rename_i hbit
      rw [if_neg hbit] at h
      cases h

/-- A mark sets the bit of its piece and no other. -/
theorem isDone_mark (hsize : b.bits.length = bytesFor b.pieces) (hnew : (b.mark idx).2 = true)
    (j : Nat) : (b.mark idx).1.isDone j = (b.isDone j || decide (j = idx)) := by
  obtain ⟨hlt, hnot⟩ := mark_snd.mp hnew
  have hbit : ¬ (b.bits[idx / 8]?.getD 0 &&& mask idx ≠ 0) := by
    rw [isDone, decide_eq_true hlt, Bool.true_and, bne_eq_false_iff_eq] at hnot
    exact Decidable.not_not.mpr hnot
  have hin : idx / 8 < b.bits.length := by
    rw [hsize, bytesFor]
    omega
  have hmark : (b.mark idx).1 =
      { b with
        bits := b.bits.modify (idx / 8) fun byte => byte ||| mask idx
        done := b.done + 1 } := by
    rw [mark, if_neg (Nat.not_le.mpr hlt), if_neg hbit]
  rw [hmark, isDone, isDone]
  dsimp only
  rw [List.getElem?_modify]
  by_cases hbyte : idx / 8 = j / 8
  · have hj : b.bits[j / 8]? = some (b.bits[j / 8]?.getD 0) := by
      rw [← hbyte, List.getElem?_eq_getElem hin, Option.getD_some]
    rw [hj]
    simp only [Option.map_eq_map, Option.map_some, if_pos hbyte, Option.getD_some]
    rw [Word.or_and_distrib]
    by_cases heq : j = idx
    · subst heq
      simp [hlt, mask_ne_zero, UInt8.and_self]
    · have hmod : idx % 8 ≠ j % 8 := by omega
      rw [mask_and_mask hmod, UInt8.or_zero, decide_eq_false heq, Bool.or_false]
  · have hne : j ≠ idx := by
      rintro rfl
      exact hbyte rfl
    rw [decide_eq_false hne, Bool.or_false]
    cases b.bits[j / 8]? with
    | none => rfl
    | some byte => simp only [Option.map_eq_map, Option.map_some, if_neg hbyte]

theorem Sound.mark (h : b.Sound) (idx : Nat) : (b.mark idx).1.Sound := by
  by_cases hnew : (b.mark idx).2 = true
  · obtain ⟨hlt, hnot⟩ := mark_snd.mp hnew
    have hdone := isDone_mark h.size hnew
    have hfields : (b.mark idx).1.bits.length = b.bits.length ∧
        (b.mark idx).1.done = b.done + 1 := by
      have hbit : ¬ (b.bits[idx / 8]?.getD 0 &&& mask idx ≠ 0) := by
        rw [isDone, decide_eq_true hlt, Bool.true_and, bne_eq_false_iff_eq] at hnot
        exact Decidable.not_not.mpr hnot
      rw [Bitmap.mark, if_neg (Nat.not_le.mpr hlt), if_neg hbit]
      exact ⟨List.length_modify _ _ _, rfl⟩
    refine ⟨?_, ?_⟩
    · rw [hfields.1, pieces_mark]
      exact h.size
    · -- the one bit more is not among those that were set
      have hone : tally (fun j => decide (j = idx)) 0 b.pieces = 1 := by
        have hbetween := Counting.tally_between idx (idx + 1) 0 b.pieces
        rw [Counting.tally_congr (q := fun g => decide (idx ≤ g) && decide (g < idx + 1)),
          hbetween]
        · omega
        · intro g _ _
          rw [← Bool.decide_and]
          exact decide_eq_decide.mpr (by omega)
      rw [hfields.2, pieces_mark, h.done, Counting.tally_congr fun g _ _ => hdone g,
        Counting.tally_or, hone]
      rintro g _ _ ⟨hset, heq⟩
      rw [of_decide_eq_true heq, hnot] at hset
      cases hset
  · rw [mark_of_not_new (Bool.eq_false_iff.mpr hnew)]
    exact h

theorem Sound.isComplete_iff (h : b.Sound) :
    b.isComplete = true ↔ ∀ idx < b.pieces, b.isDone idx = true := by
  rw [isComplete, decide_eq_true_iff, h.done, Counting.tally_eq_iff]
  constructor
  · intro hall idx hidx
    exact hall idx (Nat.zero_le _) (by omega)
  · intro hall idx _ hidx
    exact hall idx (by omega)

/-! ## The hexadecimal form -/

theorem pieces_fromHex {hex : String} {pieces : Nat} (h : fromHex hex pieces = some b) :
    b.pieces = pieces := by
  obtain ⟨bytes, -, hb⟩ := Option.bind_eq_some_iff.mp h
  split at hb
  · cases hb
  · cases hb
    rfl

theorem sound_fromHex {hex : String} {pieces : Nat} (h : fromHex hex pieces = some b) :
    b.Sound := by
  obtain ⟨bytes, -, hb⟩ := Option.bind_eq_some_iff.mp h
  split at hb
  · cases hb
  · rename_i hlen
    cases hb
    refine ⟨?_, rfl⟩
    dsimp only
    split
    · rw [List.length_modify]
      exact Decidable.not_not.mp hlen
    · exact Decidable.not_not.mp hlen

/-- **Round trip**: a bitmap that is written and read again marks the same pieces. -/
theorem fromHex_toHex (h : b.Sound) :
    ∃ b', fromHex b.toHex b.pieces = some b' ∧ ∀ idx, b'.isDone idx = b.isDone idx := by
  rw [fromHex, toHex, Hex.decode_hex, Option.bind_some, if_neg (Decidable.not_not.mpr h.size)]
  refine ⟨_, rfl, fun idx => ?_⟩
  rw [isDone, isDone]
  dsimp only
  split
  · rename_i hpad
    by_cases hlt : idx < b.pieces
    · rw [List.getElem?_modify]
      by_cases hlast : b.bits.length - 1 = idx / 8
      · -- in the last byte, below the bits that are cleared
        have hsize := h.size
        rw [bytesFor] at hsize
        have hlow : idx % 8 < b.pieces % 8 := by omega
        cases hbyte : b.bits[idx / 8]? with
        | none => rfl
        | some byte =>
          simp only [Option.map_eq_map, Option.map_some, if_pos hlast, Option.getD_some]
          rw [UInt8.and_assoc, low_and_mask hlow]
      · cases hbyte : b.bits[idx / 8]? with
        | none => rfl
        | some byte => simp only [Option.map_eq_map, Option.map_some, if_neg hlast]
    · rw [decide_eq_false hlt, Bool.false_and, Bool.false_and]
  · rfl

/-! ## Bytes -/

/-- The bytes of the pieces below `n` that are in a set. -/
def sizeOf (total : Nat) (p : Nat → Bool) (n : Nat) : Nat :=
  Tiling.total (pieceSize total) ((List.range n).filter p)

theorem sizeOf_succ (total : Nat) (p : Nat → Bool) (n : Nat) :
    sizeOf total p (n + 1) = sizeOf total p n + if p n then pieceSize total n else 0 := by
  rw [sizeOf, List.range_succ, List.filter_append, Tiling.total_append]
  congr 1
  by_cases hp : p n = true
  · rw [List.filter_cons_of_pos hp, if_pos hp, List.filter_nil, Tiling.total_cons,
      Tiling.total_nil, Nat.add_zero]
  · rw [List.filter_cons_of_neg hp, if_neg hp, List.filter_nil, Tiling.total_nil]

variable {total : Nat}

theorem sizeOf_congr {p q : Nat → Bool} {n : Nat} (h : ∀ i < n, p i = q i) :
    sizeOf total p n = sizeOf total q n := by
  rw [sizeOf, sizeOf, List.filter_congr fun i hi => h i (List.mem_range.mp hi)]

theorem sizeOf_or {p : Nat → Bool} (hp : p idx = false) (n : Nat) :
    sizeOf total (fun j => p j || decide (j = idx)) n =
      sizeOf total p n + if idx < n then pieceSize total idx else 0 := by
  induction n with
  | zero =>
    rw [if_neg (Nat.not_lt_zero idx)]
    rfl
  | succ n ih =>
    rw [sizeOf_succ, sizeOf_succ, ih]
    by_cases hn : n = idx
    · subst hn
      rw [hp, if_pos (Nat.lt_succ_self n), if_neg (Nat.lt_irrefl n), decide_eq_true rfl,
        Bool.false_or, if_pos rfl, if_neg Bool.false_ne_true]
    · rw [decide_eq_false hn, Bool.or_false]
      by_cases hlt : idx < n
      · rw [if_pos hlt, if_pos (Nat.lt_succ_of_lt hlt)]
        exact Nat.add_right_comm _ _ _
      · have hnext : ¬ idx < n + 1 := by omega
        rw [if_neg hlt, if_neg hnext, Nat.add_zero, Nat.add_zero]

/-- All pieces make up the whole. -/
theorem sizeOf_all {p : Nat → Bool} {n : Nat} (h : ∀ i < n, p i = true) :
    sizeOf total p n = min total (n * pieceLen) := by
  induction n with
  | zero =>
    rw [Nat.zero_mul, Nat.min_zero]
    rfl
  | succ n ih =>
    rw [sizeOf_succ, ih fun i hi => h i (by omega), if_pos (h n (Nat.lt_succ_self n)), pieceSize,
      Nat.succ_mul]
    omega

theorem piecesOf_mul_pieceLen (total : Nat) : total ≤ piecesOf total * pieceLen := by
  unfold piecesOf pieceLen
  omega

/-- A piece that there is begins inside the file. -/
theorem mul_pieceLen_lt (h : idx < piecesOf total) : idx * pieceLen < total := by
  unfold piecesOf pieceLen at *
  omega

theorem doneBytes_eq (h : b.pieces = piecesOf total) :
    b.doneBytes total = sizeOf total b.isDone b.pieces := by
  unfold doneBytes
  split
  · rename_i hzero
    rw [hzero]
    rfl
  · refine Tiling.total_congr fun i hi => ?_
    have hlt : i < piecesOf total := h ▸ List.mem_range.mp (List.mem_filter.mp hi).1
    have hin := mul_pieceLen_lt hlt
    rw [h, pieceSize]
    split
    · rename_i hlast
      have hall := piecesOf_mul_pieceLen total
      rw [← hlast] at hall ⊢
      rw [Nat.add_sub_cancel]
      rw [Nat.succ_mul] at hall
      omega
    · rename_i hnot
      have hnext : i + 1 < piecesOf total := by omega
      have hfull := mul_pieceLen_lt hnext
      rw [Nat.succ_mul] at hfull
      omega

theorem doneBytes_new (total : Nat) : (new total).doneBytes total = 0 := by
  rw [doneBytes_eq rfl, sizeOf, List.filter_eq_nil_iff.mpr fun i _ => by rw [isDone_new]; simp]
  rfl

/-- A new mark counts with the length of its piece. -/
theorem doneBytes_mark (h : b.Sound) (hpieces : b.pieces = piecesOf total)
    (hnew : (b.mark idx).2 = true) :
    (b.mark idx).1.doneBytes total = b.doneBytes total + pieceSize total idx := by
  obtain ⟨hlt, hnot⟩ := mark_snd.mp hnew
  rw [doneBytes_eq ((pieces_mark b idx).trans hpieces), doneBytes_eq hpieces, pieces_mark,
    sizeOf_congr fun i _ => isDone_mark h.size hnew i, sizeOf_or hnot, if_pos hlt]

theorem doneBytes_complete (hpieces : b.pieces = piecesOf total)
    (hall : ∀ idx < b.pieces, b.isDone idx = true) : b.doneBytes total = total := by
  rw [doneBytes_eq hpieces, sizeOf_all hall, hpieces]
  exact Nat.min_eq_left (piecesOf_mul_pieceLen total)

end Bitmap
end XferRust.Sftp.Download
