import Mathlib.Data.Nat.Bitwise
import XferRust.Storage.Finish
import XferRust.Storage.Resume

/-! # The map of pieces under all of its calls

A map that holds no bit behind its last piece is the same as its pieces (`Clean.ext`), so its count
and its bitfield say what is set.  Every call keeps that, whatever the bitfield that it is given:
the loops of `set_from_bitfield` stop at the last piece.  Their indices are of 32 bits, and wrap
behind a bitfield of half a gigabyte; below that they set what the bitfield has, and nothing else.
-/
namespace XferRust.Storage
open Tiling (total)
open Counting (tally)

namespace PieceMap

/-! ## Calls -/

/-- `set_all` -/
def setAll (m : PieceMap) : PieceMap where
  count := m.count
  bits :=
    let bits := m.bits.map fun _ => 0xFF
    let trailing := m.count.toNat % 8
    if trailing ≠ 0 then
      bits.modify (bits.length - 1) fun last => last &&& 0xFF <<< UInt8.ofNat (8 - trailing)
    else bits
  size := by
    have hsize := m.size
    dsimp only
    split
    · rw [List.length_modify, List.length_map, hsize]
    · rw [List.length_map, hsize]

def clear (m : PieceMap) : PieceMap where
  count := m.count
  bits := m.bits.map fun _ => 0
  size := by rw [List.length_map, m.size]

/-- The inner loop of `set_from_bitfield`, over the bits of a byte. -/
def mergeByte (b : UInt8) (base : UInt32) : List Nat → PieceMap → PieceMap
  | [], m => m
  | bit :: rest, m =>
    let idx := base + UInt32.ofNat bit
    if m.count ≤ idx then m
    else
      mergeByte b base rest
        (if b &&& 0x80 >>> UInt8.ofNat bit != 0 then m.set idx else m)

/-- The outer loop of `set_from_bitfield`, from byte number `i` on; `i` is cast to 32 bits. -/
def mergeFrom : Nat → List UInt8 → PieceMap → PieceMap
  | _, [], m => m
  | i, b :: rest, m =>
    let base := UInt32.ofNat i * 8
    if m.count ≤ base then m else mergeFrom (i + 1) rest (mergeByte b base (List.range 8) m)

/-- `set_from_bitfield`, with its 32-bit indices. -/
def merge (m : PieceMap) (bf : List UInt8) : PieceMap := mergeFrom 0 bf m

/-- The calls that change a map.  What is loaded goes into a new map. -/
inductive Call
  | mark (i : UInt32)
  | unmark (i : UInt32)
  | load (bf : List UInt8)
  | merge (bf : List UInt8)
  | setAll
  | clear

def Call.apply (m : PieceMap) : Call → PieceMap
  | .mark i => m.set i
  | .unmark i => m.unset i
  | .load bf => (new m.count).merge bf
  | .merge bf => m.merge bf
  | .setAll => m.setAll
  | .clear => m.clear

/-! ## Nothing behind the last piece -/

theorem mergeByte_count (b : UInt8) (base : UInt32) (bits : List Nat) (m : PieceMap) :
    (mergeByte b base bits m).count = m.count := by
  induction bits generalizing m with
  | nil => rfl
  | cons bit rest ih =>
    unfold mergeByte
    dsimp only
    split
    · rfl
    · rw [ih]
      split
      · exact set_count m _
      · rfl

theorem mergeFrom_count (i : Nat) (bf : List UInt8) (m : PieceMap) :
    (mergeFrom i bf m).count = m.count := by
  induction bf generalizing i m with
  | nil => rfl
  | cons b rest ih =>
    unfold mergeFrom
    dsimp only
    split
    · rfl
    · rw [ih, mergeByte_count]

theorem merge_count (m : PieceMap) (bf : List UInt8) : (m.merge bf).count = m.count :=
  mergeFrom_count 0 bf m

variable {m : PieceMap} {r : Nat}

theorem Clean.mergeByte (h : m.Clean) (b : UInt8) (base : UInt32) (bits : List Nat) :
    (PieceMap.mergeByte b base bits m).Clean := by
  induction bits generalizing m with
  | nil => exact h
  | cons bit rest ih =>
    unfold PieceMap.mergeByte
    dsimp only
    split
    · exact h
    · refine ih ?_
      split
      · exact h.set _
      · exact h

theorem Clean.mergeFrom (h : m.Clean) (i : Nat) (bf : List UInt8) :
    (PieceMap.mergeFrom i bf m).Clean := by
  induction bf generalizing i m with
  | nil => exact h
  | cons b rest ih =>
    unfold PieceMap.mergeFrom
    dsimp only
    split
    · exact h
    · exact ih (h.mergeByte b _ _) (i + 1)

/-- Clearing bits sets none. -/
theorem Clean.unset (h : m.Clean) (i : UInt32) : (m.unset i).Clean := by
  intro k hk
  rw [unset_count] at hk
  have hold := h k hk
  unfold PieceMap.unset
  split
  · unfold bitAt at hold ⊢
    dsimp only
    rw [List.getElem?_modify]
    cases hbyte : m.bits[k / 8]? with
    | none => rfl
    | some byte =>
      rw [hbyte] at hold
      simp only [Option.map_eq_map, Option.map_some]
      split
      · rw [bne_eq_false_iff_eq] at hold ⊢
        rw [UInt8.and_assoc, UInt8.and_comm (~~~bitMask i), ← UInt8.and_assoc, hold,
          UInt8.zero_and]
      · exact hold
  · exact hold

theorem clean_clear (m : PieceMap) : m.clear.Clean := by
  intro k _
  unfold bitAt
  rw [show m.clear.bits = m.bits.map fun _ => (0 : UInt8) from rfl, List.getElem?_map]
  cases m.bits[k / 8]? with
  | none => rfl
  | some byte =>
    rw [Option.map_some]
    simp only [UInt8.zero_and]
    rfl

/-- The mask of the last byte has the bits of the pieces that are there. -/
theorem high_and_mask {t : Nat} (ht : t < 8) (ht0 : t ≠ 0) (hr : r < 8) (htr : t ≤ r) :
    ((0xFF : UInt8) &&& (0xFF : UInt8) <<< UInt8.ofNat (8 - t)) &&&
      (0x80 : UInt8) >>> UInt8.ofNat r = 0 := by
  have hall : ∀ t < 8, t ≠ 0 → ∀ r < 8, t ≤ r →
      ((0xFF : UInt8) &&& (0xFF : UInt8) <<< UInt8.ofNat (8 - t)) &&&
        (0x80 : UInt8) >>> UInt8.ofNat r = 0 := by decide
  exact hall t ht ht0 r hr htr

theorem clean_setAll (m : PieceMap) : m.setAll.Clean := by
  intro k hk
  have hk : m.count.toNat ≤ k := hk
  have hsize := m.size
  unfold bitAt
  rw [show m.setAll.bits = if m.count.toNat % 8 ≠ 0 then
      (m.bits.map fun _ => (0xFF : UInt8)).modify ((m.bits.map fun _ => (0xFF : UInt8)).length - 1)
        fun last => last &&& (0xFF : UInt8) <<< UInt8.ofNat (8 - m.count.toNat % 8)
      else m.bits.map fun _ => (0xFF : UInt8) from rfl]
  split
  · rfl
  · rename_i byte hbyte
    have hin : k / 8 < m.bits.length := by
      have hlt := (List.getElem?_eq_some_iff.mp hbyte).1
      split at hlt
      · rwa [List.length_modify, List.length_map] at hlt
      · rwa [List.length_map] at hlt
    -- so the bit is one of the spare bits of the last byte
    have hlast : m.bits.length - 1 = k / 8 ∧ m.count.toNat % 8 ≠ 0 ∧
        m.count.toNat % 8 ≤ k % 8 := by omega
    rw [if_pos hlast.2.1, List.getElem?_modify, List.length_map, List.getElem?_map,
      List.getElem?_eq_getElem hin] at hbyte
    simp only [Option.map_eq_map, Option.map_some, if_pos hlast.1] at hbyte
    rw [← Option.some.inj hbyte, bne_eq_false_iff_eq]
    exact high_and_mask (Nat.mod_lt _ (by decide)) hlast.2.1 (Nat.mod_lt _ (by decide)) hlast.2.2

/-- **Every call** keeps the number of pieces, and sets no bit behind the last one. -/
theorem Clean.apply (h : m.Clean) (c : Call) : (c.apply m).Clean ∧ (c.apply m).count = m.count := by
  cases c with
  | mark i => exact ⟨h.set i, set_count m i⟩
  | unmark i => exact ⟨h.unset i, unset_count m i⟩
  | load bf => exact ⟨(clean_new m.count).mergeFrom 0 bf, merge_count _ bf⟩
  | merge bf => exact ⟨h.mergeFrom 0 bf, merge_count m bf⟩
  | setAll => exact ⟨clean_setAll m, rfl⟩
  | clear => exact ⟨clean_clear m, rfl⟩

theorem clean_calls (n : UInt32) (cs : List Call) :
    (cs.foldl Call.apply (new n)).Clean ∧ (cs.foldl Call.apply (new n)).count = n := by
  have hall : ∀ (cs : List Call) (m : PieceMap), m.Clean → m.count = n →
      (cs.foldl Call.apply m).Clean ∧ (cs.foldl Call.apply m).count = n := by
    intro cs
    induction cs with
    | nil => exact fun m h hn => ⟨h, hn⟩
    | cons c cs ih =>
      intro m h hn
      obtain ⟨hclean, hcount⟩ := h.apply c
      exact ih (c.apply m) hclean (hcount.trans hn)
  exact hall cs (new n) (clean_new n) rfl

/-! ## A clean map is its pieces -/

theorem mask_eq (hr : r < 8) : ((0x80 : UInt8) >>> UInt8.ofNat r).toNat = 2 ^ (7 - r) := by
  have hall : ∀ r < 8, ((0x80 : UInt8) >>> UInt8.ofNat r).toNat = 2 ^ (7 - r) := by decide
  exact hall r hr

theorem and_mask (x : UInt8) (hr : r < 8) :
    (x &&& 0x80 >>> UInt8.ofNat r != 0) = x.toNat.testBit (7 - r) := by
  have hand : (x &&& 0x80 >>> UInt8.ofNat r).toNat =
      (x.toNat.testBit (7 - r)).toNat * 2 ^ (7 - r) := by
    rw [UInt8.toNat_and, mask_eq hr, Nat.and_two_pow]
  have hpos : 0 < 2 ^ (7 - r) := Nat.two_pow_pos _
  cases hbit : x.toNat.testBit (7 - r) with
  | false =>
    rw [hbit, Bool.toNat_false, Nat.zero_mul] at hand
    rw [bne_eq_false_iff_eq]
    exact UInt8.toNat_inj.mp hand
  | true =>
    rw [hbit, Bool.toNat_true, Nat.one_mul] at hand
    rw [bne_iff_ne]
    intro hzero
    rw [hzero] at hand
    exact absurd hand.symm (Nat.pos_iff_ne_zero.mp hpos)

/-- Bytes with the same bits are the same. -/
theorem byte_ext {x y : UInt8}
    (h : ∀ r < 8, (x &&& 0x80 >>> UInt8.ofNat r != 0) = (y &&& 0x80 >>> UInt8.ofNat r != 0)) :
    x = y := by
  refine UInt8.toNat_inj.mp (Nat.eq_of_testBit_eq fun k => ?_)
  by_cases hk : k < 8
  · have hbit := h (7 - k) (by omega)
    rw [and_mask x (by omega), and_mask y (by omega)] at hbit
    rwa [show 7 - (7 - k) = k by omega] at hbit
  · have hle : 2 ^ 8 ≤ 2 ^ k := Nat.pow_le_pow_right (by decide) (by omega)
    have hx := x.toNat_lt
    have hy := y.toNat_lt
    rw [Nat.testBit_lt_two_pow (by omega), Nat.testBit_lt_two_pow (by omega)]

/-- **Clean maps** with the same pieces are the same. -/
theorem Clean.ext {m' : PieceMap} (h : m.Clean) (h' : m'.Clean) (hcount : m.count = m'.count)
    (hset : ∀ i, m.isSet i = m'.isSet i) : m = m' := by
  have hbits : m.bits = m'.bits := by
    refine List.ext_getElem? fun q => ?_
    have hlen : m.bits.length = m'.bits.length := by rw [m.size, m'.size, hcount]
    by_cases hq : q < m.bits.length
    · rw [List.getElem?_eq_getElem hq, List.getElem?_eq_getElem (hlen ▸ hq)]
      refine congrArg some (byte_ext fun r hr => ?_)
      have hat : ∀ {bits : List UInt8} (hb : q < bits.length),
          bitAt bits (8 * q + r) = (bits[q] &&& 0x80 >>> UInt8.ofNat r != 0) := by
        intro bits hb
        unfold bitAt
        rw [show (8 * q + r) / 8 = q by omega, show (8 * q + r) % 8 = r by omega,
          List.getElem?_eq_getElem hb]
      rw [← hat hq, ← hat (hlen ▸ hq)]
      by_cases hk : 8 * q + r < m.count.toNat
      · have hone := hset (UInt32.ofNat (8 * q + r))
        rw [isSet_eq_bitAt (ofNat_lt hk), toNat_ofNat hk,
          isSet_eq_bitAt (ofNat_lt (hcount ▸ hk)), toNat_ofNat (hcount ▸ hk)] at hone
        exact hone
      · rw [h _ (Nat.le_of_not_lt hk), h' _ (hcount ▸ Nat.le_of_not_lt hk)]
    · rw [List.getElem?_eq_none (Nat.le_of_not_lt hq),
        List.getElem?_eq_none (hlen ▸ Nat.le_of_not_lt hq)]
  cases m with
  | mk count bits size =>
    cases m' with
    | mk count' bits' size' =>
      obtain rfl : count = count' := hcount
      obtain rfl : bits = bits' := hbits
      rfl

/-! ## What a bitfield sets -/

theorem bitAt_cons_of_lt (b : UInt8) (rest : List UInt8) (hr : r < 8) :
    bitAt (b :: rest) r = (b &&& 0x80 >>> UInt8.ofNat r != 0) := by
  unfold bitAt
  rw [show r / 8 = 0 by omega, show r % 8 = r by omega]
  rfl

/-- The bits of a byte from bit `a` on. -/
theorem isSet_mergeByte {b : UInt8} {base : UInt32} (hbase : base.toNat + 8 ≤ 4294967296)
    (n : Nat) {a : Nat} (ha : a + n = 8) (m : PieceMap) (j : UInt32) :
    (mergeByte b base (List.range' a n) m).isSet j = true ↔ m.isSet j = true ∨
      (j < m.count ∧ ∃ r, a ≤ r ∧ r < 8 ∧ j.toNat = base.toNat + r ∧
        (b &&& 0x80 >>> UInt8.ofNat r != 0) = true) := by
  induction n generalizing a m with
  | zero =>
    refine ⟨.inl, fun h => h.resolve_right ?_⟩
    rintro ⟨-, r, hlo, hhi, -⟩
    omega
  | succ n ih =>
    have hidx : (base + UInt32.ofNat a).toNat = base.toNat + a := by
      rw [UInt32.toNat_add, UInt32.toNat_ofNat', Nat.mod_eq_of_lt (a := a) (by omega),
        Nat.mod_eq_of_lt (by omega)]
    rw [List.range'_succ]
    unfold mergeByte
    dsimp only
    split
    · rename_i hend
      rw [UInt32.le_iff_toNat_le, hidx] at hend
      refine ⟨.inl, fun h => h.resolve_right ?_⟩
      rintro ⟨hj, r, hlo, -, hjr, -⟩
      rw [UInt32.lt_iff_toNat_lt] at hj
      omega
    · rename_i hlt
      have hlt : base + UInt32.ofNat a < m.count := UInt32.not_le.mp hlt
      have hself : ∀ {j : UInt32}, base + UInt32.ofNat a = j ↔ j.toNat = base.toNat + a := by
        intro j
        rw [← UInt32.toNat_inj, hidx, eq_comm]
      rw [ih (by omega)]
      by_cases hbit : (b &&& 0x80 >>> UInt8.ofNat a != 0) = true
      · rw [if_pos hbit, set_count, isSet_set_of_lt hlt, Bool.or_eq_true, decide_eq_true_eq,
          hself]
        constructor
        · rintro ((hj | hold) | ⟨hj, r, hlo, hr⟩)
          · exact .inr ⟨by rwa [← hself.mpr hj], a, Nat.le_refl a, by omega, hj, hbit⟩
          · exact .inl hold
          · exact .inr ⟨hj, r, by omega, hr⟩
        · rintro (hold | ⟨hj, r, hlo, hr, hjr, hb⟩)
          · exact .inl (.inr hold)
          · by_cases hra : r = a
            · exact .inl (.inl (hra ▸ hjr))
            · exact .inr ⟨hj, r, by omega, hr, hjr, hb⟩
      · rw [if_neg hbit]
        refine or_congr_right (and_congr_right fun _ => ?_)
        constructor
        · rintro ⟨r, hlo, hr⟩
          exact ⟨r, by omega, hr⟩
        · rintro ⟨r, hlo, hr, hjr, hb⟩
          refine ⟨r, ?_, hr, hjr, hb⟩
          have hne : r ≠ a := by
            rintro rfl
            exact hbit hb
          omega

/-- The indices of the loop do not wrap: the bitfield ends, or the last piece comes, before. -/
def Fits (m : PieceMap) (i : Nat) (bf : List UInt8) : Prop :=
  i + bf.length ≤ 536870912 ∨ m.count.toNat ≤ 4294967288 ∧ i < 536870912

theorem isSet_mergeFrom {bf : List UInt8} {i : Nat} (hfits : m.Fits i bf) (j : UInt32) :
    (mergeFrom i bf m).isSet j = true ↔ m.isSet j = true ∨
      (j < m.count ∧ 8 * i ≤ j.toNat ∧ bitAt bf (j.toNat - 8 * i) = true) := by
  induction bf generalizing i m with
  | nil =>
    refine ⟨.inl, fun h => h.resolve_right ?_⟩
    rintro ⟨-, -, hbit⟩
    cases hbit
  | cons b rest ih =>
    have hi : i < 536870912 := by
      rcases hfits with hlen | hcount
      · rw [List.length_cons] at hlen
        omega
      · exact hcount.2
    have hbase : (UInt32.ofNat i * 8).toNat = 8 * i := by
      rw [UInt32.toNat_mul, UInt32.toNat_ofNat', Nat.mod_eq_of_lt (a := i) (by omega)]
      show i * 8 % 4294967296 = 8 * i
      omega
    unfold mergeFrom
    dsimp only
    split
    · rename_i hend
      rw [UInt32.le_iff_toNat_le, hbase] at hend
      refine ⟨.inl, fun h => h.resolve_right ?_⟩
      rintro ⟨hj, hlo, -⟩
      rw [UInt32.lt_iff_toNat_lt] at hj
      omega
    · rename_i hlt
      have hlt := UInt32.lt_iff_toNat_lt.mp (UInt32.not_le.mp hlt)
      rw [hbase] at hlt
      have hnext : (mergeByte b (UInt32.ofNat i * 8) (List.range 8) m).Fits (i + 1) rest := by
        rw [Fits, mergeByte_count]
        rcases hfits with hlen | hcount
        · rw [List.length_cons] at hlen
          exact .inl (by omega)
        · exact .inr ⟨hcount.1, by omega⟩
      rw [ih hnext, mergeByte_count, List.range_eq_range',
        isSet_mergeByte (by omega) 8 (by omega), hbase]
      constructor
      · rintro ((hold | ⟨hj, r, -, hr, hjr, hb⟩) | ⟨hj, hlo, hb⟩)
        · exact .inl hold
        · refine .inr ⟨hj, by omega, ?_⟩
          rw [show j.toNat - 8 * i = r by omega, bitAt_cons_of_lt b rest hr]
          exact hb
        · refine .inr ⟨hj, by omega, ?_⟩
          rw [show j.toNat - 8 * i = j.toNat - 8 * (i + 1) + 8 by omega, bitAt_cons_add]
          exact hb
      · rintro (hold | ⟨hj, hlo, hb⟩)
        · exact .inl (.inl hold)
        · by_cases hin : j.toNat - 8 * i < 8
          · rw [bitAt_cons_of_lt b rest hin] at hb
            exact .inl (.inr ⟨hj, j.toNat - 8 * i, Nat.zero_le _, hin, by omega, hb⟩)
          · rw [show j.toNat - 8 * i = j.toNat - 8 * (i + 1) + 8 by omega, bitAt_cons_add] at hb
            exact .inr ⟨hj, by omega, hb⟩

/-- **A merge** sets what the bitfield has below the number of pieces. -/
theorem isSet_merge {bf : List UInt8} (hfits : m.Fits 0 bf) (j : UInt32) :
    (m.merge bf).isSet j = true ↔
      m.isSet j = true ∨ j < m.count ∧ hasBit bf j = true := by
  rw [merge, isSet_mergeFrom hfits, hasBit_eq_bitAt, Nat.mul_zero, Nat.sub_zero]
  exact or_congr_right (and_congr_right fun _ => ⟨fun h => h.2, fun h => ⟨Nat.zero_le _, h⟩⟩)

/-- **Round trip**: a clean map is read back from its bitfield. -/
theorem Clean.merge_toBitfield (h : m.Clean) : (new m.count).merge m.toBitfield = m := by
  have hfits : (new m.count).Fits 0 m.toBitfield := by
    have hsize := m.size
    have hcount := m.count.toNat_lt
    exact .inl (by rw [toBitfield]; omega)
  refine ((clean_new m.count).mergeFrom 0 _).ext h (merge_count _ _) fun j => ?_
  refine Bool.eq_iff_iff.mpr ((isSet_merge hfits j).trans ?_)
  rw [isSet_new]
  constructor
  · rintro (hnone | ⟨hj, hbit⟩)
    · cases hnone
    · have hj : j < m.count := hj
      rw [isSet, if_neg (UInt32.not_le.mpr hj)]
      exact hbit
  · intro hset
    have hj := lt_count hset
    rw [isSet, if_neg (UInt32.not_le.mpr hj)] at hset
    exact .inr ⟨hj, hset⟩

/-! ## Counts -/

/-- The pieces that are set. -/
def pieces (m : PieceMap) : List Nat :=
  (List.range m.count.toNat).filter fun k => m.isSet (UInt32.ofNat k)

theorem length_pieces (m : PieceMap) :
    m.pieces.length = tally (bitAt m.bits) 0 m.count.toNat := by
  rw [pieces, ← List.countP_eq_length_filter, tally, List.range_eq_range']
  refine List.countP_congr fun k hk => ?_
  have hlt : k < m.count.toNat := by
    have hin := (List.mem_range'_1.mp hk).2
    omega
  rw [isSet_eq_bitAt (ofNat_lt hlt), toNat_ofNat hlt]

/-- The sum of the ones is no more than the number of pieces: the minimum in `done_count` takes
nothing off. -/
theorem Clean.total_countOnes (h : m.Clean) : total countOnes m.bits = m.doneCount := by
  have hsize := m.size
  have hrest : tally (bitAt m.bits) (0 + m.count.toNat) (8 * m.bits.length - m.count.toNat) = 0 :=
    Counting.tally_eq_zero.mpr fun k hlo _ => h k (by omega)
  rw [h.doneCount, Storage.total_countOnes,
    show 8 * m.bits.length = m.count.toNat + (8 * m.bits.length - m.count.toNat) by omega,
    Counting.tally_add, hrest, Nat.add_zero]

/-- **A map is consistent** under every sequence of calls: the count is that of the pieces that are
set and of the ones in the bytes, no bit lies behind the last piece, and the bitfield gives the map
back.  What is merged sets its pieces and nothing else, however many bits come behind them. -/
theorem consistent_calls (n : UInt32) (cs : List Call) :
    let m := cs.foldl Call.apply (new n)
    m.count = n ∧ m.doneCount = m.pieces.length ∧ m.doneCount = total countOnes m.bits ∧
      (∀ k, n.toNat ≤ k → bitAt m.bits k = false) ∧ (new n).merge m.toBitfield = m ∧
      ∀ bf, m.Fits 0 bf → ∀ j, (m.merge bf).isSet j = true ↔
        m.isSet j = true ∨ j < n ∧ hasBit bf j = true := by
  intro m
  obtain ⟨hclean, hcount⟩ := clean_calls n cs
  have hclean : m.Clean := hclean
  have hcount : m.count = n := hcount
  refine ⟨hcount, hclean.doneCount.trans m.length_pieces.symm, hclean.total_countOnes.symm,
    fun k hk => hclean k (hcount ▸ hk), ?_, fun bf hfits j => ?_⟩
  · rw [← hcount]
    exact hclean.merge_toBitfield
  · rw [isSet_merge hfits, hcount]

/-- Nine pieces, of which the second byte of a bitfield has one. -/
example : ((new 9).merge [0x00, 0xFF]).pieces = [8] := by decide

end PieceMap
end XferRust.Storage
