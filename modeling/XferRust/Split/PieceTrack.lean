import XferRust.Lib.Faults
import XferRust.Storage.Completion

/-! # The pieces of an HTTP download

`PieceTrack` counts for each piece of a download the bytes that are on disk, and has a bit for each
piece that is there whole.  The counters follow from the ranges that were written: as long as
the ranges are disjoint, the counter of a piece is the number of its bytes that they cover.

A call panics where an index is past the end of an array, and the loop has a bound on the number of
its rounds.  The arithmetic is that of 64-bit words, which wraps.  The end of the last piece is the
one number here that need not fit: `len_at` takes the smaller of it and the total, after the addition.
-/
namespace XferRust.Split
open Counting (tally)
open Checked (ceilDiv divCeil)
open Storage (bitAt)

structure PieceTrack where
  total : UInt64
  pieceLen : UInt64
  /-- Of each piece the bytes that are on disk. -/
  done : List UInt64
  bf : List UInt8

namespace PieceTrack

def new (total pieceLen : UInt64) : PieceTrack :=
  let pieceLen := max pieceLen 1
  let n := divCeil total pieceLen
  { total, pieceLen, done := List.replicate n.toNat 0, bf := List.replicate (divCeil n 8).toNat 0 }

/-- `len_at`. -/
def lenAt (t : PieceTrack) (i : UInt64) : UInt64 :=
  let start := i * t.pieceLen
  min (start + t.pieceLen) t.total - start

/-- A bitfield with the bit of one piece more. -/
def setBit (bf : List UInt8) (i : Nat) : List UInt8 :=
  bf.modify (i / 8) fun byte => byte ||| 0x80 >>> UInt8.ofNat (i % 8)

/-- What a round of `add_range` does to the piece `i`, of which it adds `n` bytes. -/
def addAt (t : PieceTrack) (i n : UInt64) : Guarded Empty PieceTrack :=
  match t.done[i.toNat]? with
  | none => .error .panic
  | some d =>
    let t := { t with done := t.done.set i.toNat (d + n) }
    if d + n ≥ t.lenAt i then
      if i.toNat / 8 < t.bf.length then .ok { t with bf := setBit t.bf i.toNat }
      else .error .panic
    else .ok t

/-- The loop of `add_range`, with a bound on the number of rounds. -/
def addLoop (last : UInt64) : Nat → UInt64 → UInt64 → PieceTrack → Guarded Empty PieceTrack
  | 0, offset, _, t => if offset < last then .error .endless else .ok t
  | fuel + 1, offset, i, t =>
    if offset < last then
      let ps := i * t.pieceLen
      let pe := ps + t.lenAt i
      let lo := max offset ps
      let hi := min last pe
      if hi > lo then t.addAt i (hi - lo) >>= fun t => addLoop last fuel hi (i + 1) t
      else addLoop last fuel hi (i + 1) t
    else .ok t

/-- `saturating_add`. -/
def saturatingAdd (a b : UInt64) : UInt64 :=
  if a.toNat + b.toNat < 18446744073709551616 then a + b else 0xFFFFFFFFFFFFFFFF

/-- `add_range`. -/
def addRange (fuel : Nat) (t : PieceTrack) (offset len : UInt64) : Guarded Empty PieceTrack :=
  if len = 0 ∨ t.done.isEmpty then .ok t
  else
    let last := min (saturatingAdd offset len) t.total
    let offset := min offset last
    addLoop last fuel offset (offset / t.pieceLen) t

/-- One call of `add_range` after the other, each with its offset and its length. -/
def addRanges (fuel : Nat) : PieceTrack → List (UInt64 × UInt64) → Guarded Empty PieceTrack
  | t, [] => .ok t
  | t, (offset, len) :: ranges =>
    t.addRange fuel offset len >>= fun t => addRanges fuel t ranges

/-- `partial_bitfield`. -/
def partialBitfield (t : PieceTrack) : List UInt8 :=
  t.done.zipIdx.foldl (fun bf di =>
    if 0 < di.1 ∧ di.1 < t.lenAt (UInt64.ofNat di.2) then setBit bf di.2 else bf)
    (List.replicate ((t.done.length + 7) / 8) 0)

end PieceTrack

/-! ## What the pieces are -/

/-- A written range has the byte. -/
def inRange (r : UInt64 × UInt64) (b : Nat) : Bool :=
  decide (r.1.toNat ≤ b) && decide (b < r.1.toNat + r.2.toNat)

/-- One of the ranges has the byte. -/
def covered (ranges : List (UInt64 × UInt64)) (b : Nat) : Bool := ranges.any (inRange · b)

/-- No byte is in both ranges. -/
def Apart (r s : UInt64 × UInt64) : Prop := ∀ b, ¬ (inRange r b = true ∧ inRange s b = true)

/-- The number of pieces. -/
def pieces (total pieceLen : UInt64) : Nat := ceilDiv total.toNat pieceLen.toNat

/-- The length of piece `j`, of which the last one is what remains. -/
def pieceSize (total pieceLen : UInt64) (j : Nat) : Nat :=
  min ((j + 1) * pieceLen.toNat) total.toNat - j * pieceLen.toNat

/-- How many bytes of piece `j` have `c`. -/
def countIn (total pieceLen : UInt64) (c : Nat → Bool) (j : Nat) : Nat :=
  tally c (j * pieceLen.toNat) (pieceSize total pieceLen j)

/-- **The track says of each piece** how many of its bytes have `c`, whether all of them do, and
whether some do and some do not. -/
structure Exact (total pieceLen : UInt64) (c : Nat → Bool) (t : PieceTrack) : Prop where
  length : t.done.length = pieces total pieceLen
  done : ∀ j d, t.done[j]? = some d → d.toNat = countIn total pieceLen c j
  bit : ∀ j, bitAt t.bf j =
    (decide (j < pieces total pieceLen) &&
      decide (countIn total pieceLen c j = pieceSize total pieceLen j))
  begun : ∀ j, bitAt t.partialBitfield j =
    (decide (j < pieces total pieceLen) && (decide (0 < countIn total pieceLen c j) &&
      decide (countIn total pieceLen c j < pieceSize total pieceLen j)))

/-- No written range reaches into the last piece, or the end of the last piece is a 64-bit number,
the total not taken into account. -/
def EndFits (total pieceLen : UInt64) (ranges : List (UInt64 × UInt64)) : Prop :=
  pieces total pieceLen * pieceLen.toNat < 18446744073709551616 ∨
    ∀ r ∈ ranges, r.2 = 0 ∨ r.1.toNat + r.2.toNat ≤ (pieces total pieceLen - 1) * pieceLen.toNat

/-! ## Invariant -/

/-- The sizes of the arrays. -/
structure Shape (total pieceLen : UInt64) (t : PieceTrack) : Prop where
  hasTotal : t.total = total
  hasLen : t.pieceLen = pieceLen
  done : t.done.length = pieces total pieceLen
  bf : pieces total pieceLen ≤ 8 * t.bf.length

/-- The counters and the bits. -/
structure Counted (total pieceLen : UInt64) (c : Nat → Bool) (t : PieceTrack) : Prop
    extends Shape total pieceLen t where
  count : ∀ j d, t.done[j]? = some d → d.toNat = countIn total pieceLen c j
  bit : ∀ j, bitAt t.bf j =
    (decide (j < pieces total pieceLen) &&
      decide (countIn total pieceLen c j = pieceSize total pieceLen j))

section
variable {total pieceLen : UInt64} {c : Nat → Bool} {t : PieceTrack}

theorem countIn_le (j : Nat) : countIn total pieceLen c j ≤ pieceSize total pieceLen j :=
  Counting.tally_le _ _ _

theorem lt_pieces_iff (hpl : 0 < pieceLen.toNat) {j : Nat} :
    j < pieces total pieceLen ↔ j * pieceLen.toNat < total.toNat := Checked.lt_ceilDiv_iff hpl

theorem pieces_lt (hpl : 0 < pieceLen.toNat) : pieces total pieceLen < 18446744073709551616 := by
  have hmax := total.toNat_lt
  refine Nat.lt_of_not_le fun hle => ?_
  have hlast : 18446744073709551615 < pieces total pieceLen := by omega
  have hlt := (lt_pieces_iff hpl).mp hlast
  have := Nat.le_mul_of_pos_right 18446744073709551615 hpl
  omega

theorem pieceSize_pos (hpl : 0 < pieceLen.toNat) {j : Nat} (hj : j < pieces total pieceLen) :
    0 < pieceSize total pieceLen j := by
  have hlt := (lt_pieces_iff hpl).mp hj
  unfold pieceSize
  rw [Nat.add_mul, Nat.one_mul]
  omega

variable {i : UInt64}

/-- **`len_at` is the length of the piece** where the piece's end fits. -/
theorem toNat_lenAt (h : Shape total pieceLen t) (hpl : 0 < pieceLen.toNat)
    (hi : i.toNat < pieces total pieceLen)
    (hfits : (i.toNat + 1) * pieceLen.toNat < 18446744073709551616) :
    (i * pieceLen).toNat = i.toNat * pieceLen.toNat ∧
      (t.lenAt i).toNat = pieceSize total pieceLen i.toNat := by
  have hlt := (lt_pieces_iff hpl).mp hi
  rw [Nat.add_mul, Nat.one_mul] at hfits
  have hmul : (i * pieceLen).toNat = i.toNat * pieceLen.toNat := by
    rw [UInt64.toNat_mul]
    exact Nat.mod_eq_of_lt (by omega)
  refine ⟨hmul, ?_⟩
  unfold PieceTrack.lenAt pieceSize
  rw [h.hasTotal, h.hasLen]
  have hend : (min (i * pieceLen + pieceLen) total).toNat =
      min ((i.toNat + 1) * pieceLen.toNat) total.toNat := by
    rw [Word.toNat_min, Word.toNat_add (by rw [hmul]; exact hfits), hmul, Nat.add_mul, Nat.one_mul]
  rw [Word.toNat_sub (by rw [hend, hmul, Nat.add_mul]; omega), hend, hmul]

/-- The bytes from `lo` up to `hi`. -/
def between (lo hi b : Nat) : Bool := decide (lo ≤ b) && decide (b < hi)

variable {hi lo : Nat}

/-- **New bytes** count in each piece with the part of them that lies in it. -/
theorem countIn_or (hnew : ∀ b, lo ≤ b → b < hi → c b = false) (j : Nat) :
    countIn total pieceLen (fun b => c b || between lo hi b) j =
      countIn total pieceLen c j +
        (min hi (j * pieceLen.toNat + pieceSize total pieceLen j) -
          max lo (j * pieceLen.toNat)) := by
  unfold countIn
  rw [Counting.tally_or, ← Counting.tally_between]
  · rfl
  · rintro b - - ⟨hc, hb⟩
    obtain ⟨hlo, hhi⟩ := Bool.and_eq_true_iff.mp hb
    rw [hnew b (of_decide_eq_true hlo) (of_decide_eq_true hhi)] at hc
    cases hc

/-- Two pieces have no byte in common. -/
theorem pieces_apart (hpl : 0 < pieceLen.toNat) {i j : Nat} (hne : j ≠ i)
    (hlo : i * pieceLen.toNat ≤ lo) (hhi : hi ≤ i * pieceLen.toNat + pieceSize total pieceLen i) :
    min hi (j * pieceLen.toNat + pieceSize total pieceLen j) - max lo (j * pieceLen.toNat) = 0 := by
  have hend : ∀ k, pieceSize total pieceLen k ≤ pieceLen.toNat := by
    intro k
    unfold pieceSize
    rw [Nat.add_mul, Nat.one_mul]
    omega
  have hi' := hend i
  have hj' := hend j
  rcases Nat.lt_or_gt_of_ne hne with hlt | hlt
  · have := Nat.mul_le_mul_right pieceLen.toNat (Nat.succ_le_of_lt hlt)
    rw [Nat.succ_mul] at this
    omega
  · have := Nat.mul_le_mul_right pieceLen.toNat (Nat.succ_le_of_lt hlt)
    rw [Nat.succ_mul] at this
    omega

/-- **A round** adds new bytes of a piece to its counter, and sets its bit if they fill it. -/
theorem Counted.addAt (h : Counted total pieceLen c t) (hpl : 0 < pieceLen.toNat) {n : UInt64}
    (hin : i.toNat < pieces total pieceLen)
    (hfits : (i.toNat + 1) * pieceLen.toNat < 18446744073709551616) (hlt : lo < hi)
    (hn : n.toNat = hi - lo) (hlo : i.toNat * pieceLen.toNat ≤ lo)
    (hhi : hi ≤ i.toNat * pieceLen.toNat + pieceSize total pieceLen i.toNat)
    (hnew : ∀ b, lo ≤ b → b < hi → c b = false) :
    ∃ t', t.addAt i n = .ok t' ∧
      Counted total pieceLen (fun b => c b || between lo hi b) t' := by
  have hsize := (toNat_lenAt h.toShape hpl hin hfits).2
  have hplace : i.toNat < t.done.length := by
    rw [h.done]
    exact hin
  have hget : t.done[i.toNat]? = some t.done[i.toNat] := List.getElem?_eq_getElem hplace
  generalize t.done[i.toNat] = d at hget
  have hd := h.count _ _ hget
  -- the piece's own count grows by what is new, the others stay
  have hown : countIn total pieceLen (fun b => c b || between lo hi b) i.toNat =
      d.toNat + n.toNat := by
    rw [countIn_or hnew, hd, hn]
    omega
  have hother : ∀ j, j ≠ i.toNat → countIn total pieceLen (fun b => c b || between lo hi b) j =
      countIn total pieceLen c j := by
    intro j hj
    rw [countIn_or hnew, pieces_apart hpl hj hlo hhi, Nat.add_zero]
  have hle : countIn total pieceLen (fun b => c b || between lo hi b) i.toNat ≤
      pieceSize total pieceLen i.toNat := countIn_le _
  have hword := (t.lenAt i).toNat_lt
  have hsum : (d + n).toNat = d.toNat + n.toNat := Word.toNat_add (by omega)
  have hcount : ∀ j e, (t.done.set i.toNat (d + n))[j]? = some e →
      e.toNat = countIn total pieceLen (fun b => c b || between lo hi b) j := by
    intro j e he
    by_cases hj : j = i.toNat
    · subst hj
      rw [List.getElem?_set_self hplace] at he
      rw [← Option.some.inj he, hsum, hown]
    · rw [List.getElem?_set_ne (Ne.symm hj)] at he
      rw [hother j hj, h.count j e he]
  have hbyte : i.toNat / 8 < t.bf.length := by
    have := h.bf
    omega
  unfold PieceTrack.addAt
  rw [hget]
  dsimp only
  rw [show ({ t with done := t.done.set i.toNat (d + n) } : PieceTrack).lenAt i = t.lenAt i from
    rfl]
  by_cases hfull : d + n ≥ t.lenAt i
  · rw [if_pos hfull, if_pos hbyte]
    refine ⟨_, rfl, ⟨h.hasTotal, h.hasLen, ?_, ?_⟩, hcount, fun j => ?_⟩
    · exact List.length_set.trans h.done
    · rw [PieceTrack.setBit, List.length_modify]
      exact h.bf
    · have hwhole : countIn total pieceLen (fun b => c b || between lo hi b) i.toNat =
          pieceSize total pieceLen i.toNat := by
        rw [ge_iff_le, UInt64.le_iff_toNat_le, hsize, hsum] at hfull
        omega
      show bitAt (PieceTrack.setBit t.bf i.toNat) j = _
      rw [PieceTrack.setBit, Storage.bitAt_modify hbyte, h.bit]
      by_cases hj : j = i.toNat
      · subst hj
        simp [hwhole, hin]
      · rw [hother j hj, decide_eq_false hj, Bool.or_false]
  · rw [if_neg hfull]
    refine ⟨_, rfl, ⟨h.hasTotal, h.hasLen, List.length_set.trans h.done, h.bf⟩, hcount,
      fun j => ?_⟩
    show bitAt t.bf j = _
    rw [h.bit]
    by_cases hj : j = i.toNat
    · subst hj
      rw [ge_iff_le, UInt64.le_iff_toNat_le, hsize, hsum] at hfull
      rw [← hd, hown, decide_eq_false (show d.toNat ≠ pieceSize total pieceLen i.toNat by omega),
        decide_eq_false (show d.toNat + n.toNat ≠ pieceSize total pieceLen i.toNat by omega)]
    · rw [hother j hj]

/-- The end of the piece `i` is a 64-bit number, if a range that ends at `last` reaches into it. -/
theorem end_fits (hpl : 0 < pieceLen.toNat) {last i : Nat}
    (hfits : pieces total pieceLen * pieceLen.toNat < 18446744073709551616 ∨
      last ≤ (pieces total pieceLen - 1) * pieceLen.toNat)
    (hlast : last ≤ total.toNat) (hi : i * pieceLen.toNat < last) :
    (i + 1) * pieceLen.toNat < 18446744073709551616 := by
  have hmax := total.toNat_lt
  rcases hfits with hall | hbefore
  · have hin := (lt_pieces_iff hpl).mpr (Nat.lt_of_lt_of_le hi hlast)
    have := Nat.mul_le_mul_right pieceLen.toNat (Nat.succ_le_of_lt hin)
    exact Nat.lt_of_le_of_lt this hall
  · have hlt := Nat.lt_of_mul_lt_mul_right (Nat.lt_of_lt_of_le hi hbefore)
    have hle := Nat.mul_le_mul_right pieceLen.toNat (Nat.succ_le_of_lt hlt)
    rw [Nat.succ_eq_add_one] at hle
    have hstart := (lt_pieces_iff hpl).mp
      (show pieces total pieceLen - 1 < pieces total pieceLen by omega)
    omega

theorem Counted.congr {d : Nat → Bool} (h : Counted total pieceLen c t) (heq : ∀ b, c b = d b) :
    Counted total pieceLen d t := by
  have : c = d := funext heq
  exact this ▸ h

/-- Bytes that are counted in two steps. -/
theorem between_or {mid : Nat} (h₁ : lo ≤ mid) (h₂ : mid ≤ hi) (b : Nat) :
    (between lo mid b || between mid hi b) = between lo hi b := by
  unfold between
  by_cases hmid : b < mid
  · rw [decide_eq_true hmid, decide_eq_true (Nat.lt_of_lt_of_le hmid h₂),
      decide_eq_false (Nat.not_le.mpr hmid), Bool.false_and, Bool.or_false]
  · have hle := Nat.le_of_not_lt hmid
    rw [decide_eq_false hmid, decide_eq_true hle, decide_eq_true (Nat.le_trans h₁ hle),
      Bool.and_false, Bool.false_or]

/-- No byte is behind the end. -/
theorem or_between_self (h : hi ≤ lo) (b : Nat) : (c b || between lo hi b) = c b := by
  have hnone : between lo hi b = false := by
    unfold between
    by_cases hb : lo ≤ b
    · rw [decide_eq_false (show ¬ b < hi by omega), Bool.and_false]
    · rw [decide_eq_false hb, Bool.false_and]
  rw [hnone, Bool.or_false]

variable {last offset : UInt64}

/-- When the range is counted to its end. -/
theorem Counted.of_ended (h : Counted total pieceLen c t) (hend : ¬ offset < last) :
    Counted total pieceLen (fun b => c b || between offset.toNat last.toNat b) t := by
  rw [UInt64.lt_iff_toNat_lt] at hend
  exact h.congr fun b => (or_between_self (Nat.le_of_not_lt hend) b).symm

/-- **A round of `add_range`** in the piece that has the offset, when the end of the piece fits. -/
theorem Shape.addLoop_succ (h : Shape total pieceLen t) (hpl : 0 < pieceLen.toNat)
    (hlast : last.toNat ≤ total.toNat)
    (hend : (i.toNat + 1) * pieceLen.toNat < 18446744073709551616)
    (hlo : i.toNat * pieceLen.toNat ≤ offset.toNat)
    (hhi : offset.toNat < (i.toNat + 1) * pieceLen.toNat) (hlt : offset < last) (fuel : Nat) :
    ∃ hi, hi.toNat = min last.toNat ((i.toNat + 1) * pieceLen.toNat) ∧
      offset.toNat < hi.toNat ∧ (hi - offset).toNat = hi.toNat - offset.toNat ∧
      PieceTrack.addLoop last (fuel + 1) offset i t =
        t.addAt i (hi - offset) >>= fun t => PieceTrack.addLoop last fuel hi (i + 1) t := by
  have hlt' := UInt64.lt_iff_toNat_lt.mp hlt
  have hin : i.toNat < pieces total pieceLen := (lt_pieces_iff hpl).mpr (by omega)
  obtain ⟨hmul, hlen⟩ := toNat_lenAt h hpl hin hend
  have hpe : (i * pieceLen + t.lenAt i).toNat =
      min ((i.toNat + 1) * pieceLen.toNat) total.toNat := by
    have hsum : i.toNat * pieceLen.toNat + pieceSize total pieceLen i.toNat =
        min ((i.toNat + 1) * pieceLen.toNat) total.toNat := by
      unfold pieceSize
      rw [Nat.add_mul, Nat.one_mul] at hend ⊢
      omega
    rw [Word.toNat_add (by rw [hmul, hlen, hsum]; omega), hmul, hlen, hsum]
  have hmax : max offset (i * pieceLen) = offset := by
    refine UInt64.toNat_inj.mp ?_
    rw [Word.toNat_max, hmul]
    exact Nat.max_eq_left hlo
  have hmin : (min last (i * pieceLen + t.lenAt i)).toNat =
      min last.toNat ((i.toNat + 1) * pieceLen.toNat) := by
    rw [Word.toNat_min, hpe]
    omega
  have hmore : offset.toNat < (min last (i * pieceLen + t.lenAt i)).toNat := by
    rw [hmin]
    omega
  refine ⟨min last (i * pieceLen + t.lenAt i), hmin, hmore, Word.toNat_sub (Nat.le_of_lt hmore), ?_⟩
  rw [PieceTrack.addLoop, if_pos hlt]
  dsimp only
  rw [h.hasLen, hmax, if_pos (UInt64.lt_iff_toNat_lt.mpr hmore)]

/-- The number of the next piece. -/
theorem toNat_next (hpl : 0 < pieceLen.toNat) (hi : i.toNat < pieces total pieceLen) :
    (i + 1).toNat = i.toNat + 1 := Word.toNat_add (Nat.lt_of_le_of_lt hi (pieces_lt hpl))

variable {fuel : Nat}

/-- **The loop of `add_range`**, from a round at the start of which `offset` lies in piece `i` or
all of the range is counted. -/
theorem Counted.addLoop (h : Counted total pieceLen c t) (hpl : 0 < pieceLen.toNat)
    (hlast : last.toNat ≤ total.toNat)
    (hfits : pieces total pieceLen * pieceLen.toNat < 18446744073709551616 ∨
      last.toNat ≤ (pieces total pieceLen - 1) * pieceLen.toNat)
    (hplace : offset.toNat < last.toNat →
      i.toNat * pieceLen.toNat ≤ offset.toNat ∧ offset.toNat < (i.toNat + 1) * pieceLen.toNat)
    (hnew : ∀ b, offset.toNat ≤ b → b < last.toNat → c b = false)
    (hfuel : pieces total pieceLen ≤ fuel + i.toNat) :
    ∃ t', PieceTrack.addLoop last fuel offset i t = .ok t' ∧
      Counted total pieceLen (fun b => c b || between offset.toNat last.toNat b) t' := by
  induction fuel generalizing t c offset i with
  | zero =>
    have hend : ¬ offset < last := by
      intro hlt
      rw [UInt64.lt_iff_toNat_lt] at hlt
      have hin := (lt_pieces_iff hpl).mpr
        (Nat.lt_of_le_of_lt (hplace hlt).1 (Nat.lt_of_lt_of_le hlt hlast))
      omega
    exact ⟨t, if_neg hend, h.of_ended hend⟩
  | succ fuel ih =>
    by_cases hlt : offset < last
    · have hlt' := UInt64.lt_iff_toNat_lt.mp hlt
      obtain ⟨hlo, hhi⟩ := hplace hlt'
      have hstart : i.toNat * pieceLen.toNat < last.toNat := Nat.lt_of_le_of_lt hlo hlt'
      have hin := (lt_pieces_iff hpl).mpr (Nat.lt_of_lt_of_le hstart hlast)
      have hend := end_fits hpl hfits hlast hstart
      have hnext := toNat_next hpl hin
      obtain ⟨hi, hmin, hmore, hdiff, heq⟩ :=
        h.toShape.addLoop_succ hpl hlast hend hlo hhi hlt fuel
      -- the round counts the part of the range in this piece
      obtain ⟨u, hadd, hu⟩ := h.addAt hpl hin hend hmore hdiff hlo
        (by
          unfold pieceSize
          omega)
        (fun b h₁ h₂ => hnew b h₁ (by omega))
      -- and the rest of the range lies behind it
      have hplace' : hi.toNat < last.toNat → (i + 1).toNat * pieceLen.toNat ≤ hi.toNat ∧
          hi.toNat < ((i + 1).toNat + 1) * pieceLen.toNat := by
        intro hrest
        rw [hnext, Nat.add_mul (i.toNat + 1), Nat.one_mul]
        omega
      have hnew' : ∀ b, hi.toNat ≤ b → b < last.toNat →
          (c b || between offset.toNat hi.toNat b) = false := by
        intro b h₁ h₂
        rw [hnew b (by omega) h₂, Bool.false_or]
        unfold between
        rw [decide_eq_false (show ¬ b < hi.toNat by omega), Bool.and_false]
      obtain ⟨t', hloop, ht'⟩ := ih hu hplace' hnew' (by rw [hnext]; omega)
      refine ⟨t', ?_, ht'.congr fun b => ?_⟩
      · rw [heq, hadd]
        exact hloop
      · rw [Bool.or_assoc, between_or (by omega) (by omega)]
    · rw [PieceTrack.addLoop, if_neg hlt]
      exact ⟨t, rfl, h.of_ended hlt⟩

variable {len : UInt64}

theorem saturatingAdd_of_inside (hin : offset.toNat + len.toNat ≤ total.toNat) :
    (PieceTrack.saturatingAdd offset len).toNat = offset.toNat + len.toNat := by
  have hmax := total.toNat_lt
  unfold PieceTrack.saturatingAdd
  rw [if_pos (by omega)]
  exact Word.toNat_add (by omega)

/-- What a call with a range inside the file does. -/
theorem Shape.addRange_eq (h : Shape total pieceLen t) (hpl : 0 < pieceLen.toNat) (fuel : Nat)
    (hlen : len ≠ 0) (hin : offset.toNat + len.toNat ≤ total.toNat) :
    ∃ last, last.toNat = offset.toNat + len.toNat ∧ offset.toNat < last.toNat ∧
      t.addRange fuel offset len =
        PieceTrack.addLoop last fuel offset (offset / pieceLen) t := by
  have hpos : 0 < len.toNat := Nat.pos_of_ne_zero fun hz => hlen (UInt64.toNat_inj.mp hz)
  have hsum := saturatingAdd_of_inside hin
  have hlast : (min (PieceTrack.saturatingAdd offset len) t.total).toNat =
      offset.toNat + len.toNat := by
    rw [h.hasTotal, Word.toNat_min, hsum]
    exact Nat.min_eq_left hin
  have hsome : ¬ (len = 0 ∨ t.done.isEmpty = true) := by
    rintro (hz | hempty)
    · exact hlen hz
    · have hn := h.done
      rw [List.isEmpty_iff.mp hempty] at hn
      have : 0 < pieces total pieceLen := (lt_pieces_iff hpl).mpr (by omega)
      rw [← hn] at this
      exact absurd this (by decide)
  refine ⟨_, hlast, by omega, ?_⟩
  unfold PieceTrack.addRange
  rw [if_neg hsome]
  dsimp only
  have hoffset : min offset (min (PieceTrack.saturatingAdd offset len) t.total) = offset := by
    refine UInt64.toNat_inj.mp ?_
    rw [Word.toNat_min, hlast]
    exact Nat.min_eq_left (by omega)
  rw [hoffset, h.hasLen]

/-- The first round is in the piece that has the offset. -/
theorem offset_in_piece (hpl : 0 < pieceLen.toNat) (offset : UInt64) :
    (offset / pieceLen).toNat * pieceLen.toNat ≤ offset.toNat ∧
      offset.toNat < ((offset / pieceLen).toNat + 1) * pieceLen.toNat := by
  have hdiv := Nat.div_add_mod offset.toNat pieceLen.toNat
  have hmod := Nat.mod_lt offset.toNat hpl
  rw [UInt64.toNat_div, Nat.add_mul, Nat.one_mul, Nat.mul_comm]
  omega

/-- **A call** counts the bytes of its range. -/
theorem Counted.addRange (h : Counted total pieceLen c t) (hpl : 0 < pieceLen.toNat)
    {r : UInt64 × UInt64} (hin : r.1.toNat + r.2.toNat ≤ total.toNat)
    (hfits : pieces total pieceLen * pieceLen.toNat < 18446744073709551616 ∨ r.2 = 0 ∨
      r.1.toNat + r.2.toNat ≤ (pieces total pieceLen - 1) * pieceLen.toNat)
    (hnew : ∀ b, inRange r b = true → c b = false) (hfuel : pieces total pieceLen ≤ fuel) :
    ∃ t', t.addRange fuel r.1 r.2 = .ok t' ∧
      Counted total pieceLen (fun b => c b || inRange r b) t' := by
  obtain ⟨offset, len⟩ := r
  by_cases hlen : len = 0
  · subst hlen
    exact ⟨t, if_pos (.inl rfl), h.congr fun b => (or_between_self (Nat.le_refl _) b).symm⟩
  · obtain ⟨last, hlast, hlt, heq⟩ := h.addRange_eq hpl fuel hlen hin
    obtain ⟨t', hloop, ht'⟩ := h.addLoop hpl (hlast ▸ hin)
      (hfits.imp_right fun hh => hlast ▸ hh.resolve_left hlen)
      (fun _ => offset_in_piece hpl offset)
      (fun b h₁ h₂ => hnew b (Bool.and_eq_true_iff.mpr
        ⟨decide_eq_true h₁, decide_eq_true (hlast ▸ h₂)⟩))
      (Nat.le_trans hfuel (Nat.le_add_right fuel (offset / pieceLen).toNat))
    refine ⟨t', heq.trans hloop, ht'.congr fun b => ?_⟩
    rw [hlast]
    rfl

/-- The track of a download that has not begun. -/
theorem counted_new (total : UInt64) (hpl : 0 < pieceLen.toNat) :
    Counted total pieceLen (fun _ => false) (PieceTrack.new total pieceLen) := by
  have hmax : max pieceLen 1 = pieceLen := by
    refine UInt64.toNat_inj.mp ?_
    rw [Word.toNat_max]
    exact Nat.max_eq_left hpl
  have hn : (divCeil total pieceLen).toNat = pieces total pieceLen := Checked.toNat_divCeil hpl
  have hzero : ∀ j, countIn total pieceLen (fun _ => false) j = 0 := fun j =>
    Counting.tally_eq_zero.mpr fun _ _ _ => rfl
  unfold PieceTrack.new
  rw [hmax]
  dsimp only
  refine ⟨⟨rfl, rfl, ?_, ?_⟩, fun j d hd => ?_, fun j => ?_⟩
  · rw [List.length_replicate, hn]
  · rw [List.length_replicate, Checked.toNat_divCeil (by decide), hn]
    show _ ≤ 8 * ceilDiv _ 8
    unfold ceilDiv
    omega
  · rw [List.eq_of_mem_replicate (List.mem_of_getElem? hd), hzero]
    rfl
  · rw [Storage.bitAt_replicate, hzero]
    by_cases hj : j < pieces total pieceLen
    · rw [decide_eq_false (Nat.ne_of_lt (pieceSize_pos hpl hj)), Bool.and_false]
    · rw [decide_eq_false hj, Bool.false_and]

/-- **The calls, one after the other**, count the bytes of their ranges. -/
theorem Counted.addRanges (h : Counted total pieceLen c t) (hpl : 0 < pieceLen.toNat)
    {ranges : List (UInt64 × UInt64)} (hin : ∀ r ∈ ranges, r.1.toNat + r.2.toNat ≤ total.toNat)
    (hfits : EndFits total pieceLen ranges) (hapart : ranges.Pairwise Apart)
    (hnew : ∀ r ∈ ranges, ∀ b, inRange r b = true → c b = false)
    (hfuel : pieces total pieceLen ≤ fuel) :
    ∃ t', PieceTrack.addRanges fuel t ranges = .ok t' ∧
      Counted total pieceLen (fun b => c b || covered ranges b) t' := by
  induction ranges generalizing t c with
  | nil => exact ⟨t, rfl, h.congr fun b => (Bool.or_false _).symm⟩
  | cons r ranges ih =>
    obtain ⟨hrin, hin⟩ := List.forall_mem_cons.mp hin
    obtain ⟨hrnew, hnew⟩ := List.forall_mem_cons.mp hnew
    obtain ⟨hrapart, hapart⟩ := List.pairwise_cons.mp hapart
    obtain ⟨u, hadd, hu⟩ := h.addRange hpl hrin
      (hfits.imp_right fun hall => hall r List.mem_cons_self) hrnew hfuel
    have hnew' : ∀ s ∈ ranges, ∀ b, inRange s b = true → (c b || inRange r b) = false := by
      intro s hs b hb
      rw [hnew s hs b hb, Bool.false_or]
      exact Bool.eq_false_iff.mpr fun hr => hrapart s hs b ⟨hr, hb⟩
    obtain ⟨t', hrest, ht'⟩ := ih hu hin
      (hfits.imp_right fun hall s hs => hall s (List.mem_cons_of_mem r hs)) hapart hnew'
    refine ⟨t', ?_, ht'.congr fun b => Bool.or_assoc _ _ _⟩
    rw [PieceTrack.addRanges, hadd]
    exact hrest

/-! ## The pieces that are begun -/

/-- Bits that are set one after the other. -/
theorem bitAt_foldl {p : UInt64 × Nat → Prop} [DecidablePred p] {ds : List (UInt64 × Nat)}
    {bf : List UInt8} (hfit : ∀ di ∈ ds, di.2 / 8 < bf.length) (j : Nat) :
    bitAt (ds.foldl (fun bf di => if p di then PieceTrack.setBit bf di.2 else bf) bf) j =
      (bitAt bf j || ds.any fun di => decide (p di) && decide (j = di.2)) := by
  induction ds generalizing bf with
  | nil => exact (Bool.or_false _).symm
  | cons di ds ih =>
    obtain ⟨hdi, hds⟩ := List.forall_mem_cons.mp hfit
    rw [List.foldl_cons, List.any_cons]
    by_cases hp : p di
    · rw [if_pos hp, ih (by rw [PieceTrack.setBit, List.length_modify]; exact hds),
        PieceTrack.setBit, Storage.bitAt_modify hdi, decide_eq_true hp, Bool.true_and,
        Bool.or_assoc]
    · rw [if_neg hp, ih hds, decide_eq_false hp, Bool.false_and, Bool.false_or]

/-- **`partial_bitfield`** marks the pieces of which some bytes are there and some are not. -/
theorem Counted.bitAt_partialBitfield (h : Counted total pieceLen c t) (hpl : 0 < pieceLen.toNat)
    (hfits : ∀ j, j < pieces total pieceLen → 0 < countIn total pieceLen c j →
      (j + 1) * pieceLen.toNat < 18446744073709551616) (j : Nat) :
    bitAt t.partialBitfield j =
      (decide (j < pieces total pieceLen) && (decide (0 < countIn total pieceLen c j) &&
        decide (countIn total pieceLen c j < pieceSize total pieceLen j))) := by
  unfold PieceTrack.partialBitfield
  rw [bitAt_foldl, Storage.bitAt_replicate, Bool.false_or]
  · by_cases hj : j < pieces total pieceLen
    · have hplace : j < t.done.length := by
        rw [h.done]
        exact hj
      have hget : t.done[j]? = some t.done[j] := List.getElem?_eq_getElem hplace
      generalize t.done[j] = d at hget
      have hd := h.count j d hget
      have hword : (UInt64.ofNat j).toNat = j :=
        UInt64.toNat_ofNat_of_lt' (Nat.lt_trans hj (pieces_lt hpl))
      -- the counter is compared with the length only if it is not zero
      have hlen : 0 < d.toNat → (t.lenAt (UInt64.ofNat j)).toNat = pieceSize total pieceLen j := by
        intro hpos
        rw [hd] at hpos
        have hin : (UInt64.ofNat j).toNat < pieces total pieceLen := by
          rw [hword]
          exact hj
        have hlen := (toNat_lenAt h.toShape hpl hin (by rw [hword]; exact hfits j hj hpos)).2
        rw [hword] at hlen
        exact hlen
      rw [decide_eq_true hj, Bool.true_and, ← hd, Bool.eq_iff_iff, List.any_eq_true]
      constructor
      · rintro ⟨⟨e, k⟩, hmem, hboth⟩
        obtain ⟨hp, hk⟩ := Bool.and_eq_true_iff.mp hboth
        obtain rfl : j = k := of_decide_eq_true hk
        have hek : t.done[j]? = some e := List.mem_zipIdx_iff_getElem?.mp hmem
        obtain rfl : d = e := Option.some.inj (hget.symm.trans hek)
        obtain ⟨hpos, hless⟩ := of_decide_eq_true hp
        rw [UInt64.lt_iff_toNat_lt] at hpos hless
        rw [hlen hpos] at hless
        exact Bool.and_eq_true_iff.mpr ⟨decide_eq_true hpos, decide_eq_true hless⟩
      · intro hboth
        obtain ⟨hpos, hless⟩ := Bool.and_eq_true_iff.mp hboth
        replace hpos := of_decide_eq_true hpos
        replace hless := of_decide_eq_true hless
        refine ⟨(d, j), List.mem_zipIdx_iff_getElem?.mpr hget, Bool.and_eq_true_iff.mpr
          ⟨decide_eq_true ⟨UInt64.lt_iff_toNat_lt.mpr hpos, UInt64.lt_iff_toNat_lt.mpr ?_⟩,
            decide_eq_true rfl⟩⟩
        rw [hlen hpos]
        exact hless
    · rw [decide_eq_false hj, Bool.false_and, List.any_eq_false]
      rintro ⟨e, k⟩ hmem hboth
      obtain rfl : j = k := of_decide_eq_true (Bool.and_eq_true_iff.mp hboth).2
      have hek : t.done[j]? = some e := List.mem_zipIdx_iff_getElem?.mp hmem
      have := (List.getElem?_eq_some_iff.mp hek).1
      rw [h.done] at this
      exact hj this
  · rintro ⟨e, k⟩ hmem
    have hek : t.done[k]? = some e := List.mem_zipIdx_iff_getElem?.mp hmem
    have := (List.getElem?_eq_some_iff.mp hek).1
    rw [List.length_replicate]
    dsimp only
    omega

/-! ## When the end of the last piece does not fit -/

variable {t' : PieceTrack}

theorem Shape.addAt (h : Shape total pieceLen t) {n : UInt64} (hadd : t.addAt i n = .ok t') :
    Shape total pieceLen t' := by
  unfold PieceTrack.addAt at hadd
  split at hadd
  · cases hadd
  · dsimp only at hadd
    split at hadd
    · split at hadd
      · cases hadd
        refine ⟨h.hasTotal, h.hasLen, List.length_set.trans h.done, ?_⟩
        rw [PieceTrack.setBit, List.length_modify]
        exact h.bf
      · cases hadd
    · cases hadd
      exact ⟨h.hasTotal, h.hasLen, List.length_set.trans h.done, h.bf⟩

theorem Shape.addLoop (h : Shape total pieceLen t)
    (hloop : PieceTrack.addLoop last fuel offset i t = .ok t') : Shape total pieceLen t' := by
  induction fuel generalizing t offset i with
  | zero =>
    unfold PieceTrack.addLoop at hloop
    split at hloop
    · cases hloop
    · cases hloop
      exact h
  | succ fuel ih =>
    rw [PieceTrack.addLoop] at hloop
    split at hloop
    · dsimp only at hloop
      split at hloop
      · obtain ⟨u, hadd, hrest⟩ := Guarded.bind_eq_ok.mp hloop
        exact ih (h.addAt hadd) hrest
      · exact ih h hloop
    · cases hloop
      exact h

theorem Shape.addRange (h : Shape total pieceLen t) (hadd : t.addRange fuel offset len = .ok t') :
    Shape total pieceLen t' := by
  unfold PieceTrack.addRange at hadd
  split at hadd
  · cases hadd
    exact h
  · exact h.addLoop hadd

/-- Behind the last piece the loop goes on from multiple to multiple, and does not return: where the
next multiple does not wrap it needs a counter that there is not. -/
theorem Shape.addLoop_lost (h : Shape total pieceLen t) (hpl : 0 < pieceLen.toNat)
    (hlast : last.toNat ≤ total.toNat) (hlt : offset < last)
    (hbehind : pieces total pieceLen ≤ i.toNat) (hoff : offset = i * pieceLen)
    (hsum : i.toNat + offset.toNat < 18446744073709551616) (fuel : Nat) (t' : PieceTrack) :
    PieceTrack.addLoop last fuel offset i t ≠ .ok t' := by
  induction fuel generalizing offset i with
  | zero =>
    rw [PieceTrack.addLoop, if_pos hlt]
    exact nofun
  | succ fuel ih =>
    have hpe : i * t.pieceLen + t.lenAt i = min (offset + pieceLen) total := by
      unfold PieceTrack.lenAt
      rw [h.hasLen, h.hasTotal, ← hoff]
      grind
    have hlo : max offset (i * pieceLen) = offset := by
      rw [← hoff]
      exact UInt64.toNat_inj.mp (by rw [Word.toNat_max, Nat.max_self])
    rw [PieceTrack.addLoop, if_pos hlt]
    rw [UInt64.lt_iff_toNat_lt] at hlt
    dsimp only
    rw [hpe, h.hasLen, hlo]
    have hnext : (min last (min (offset + pieceLen) total)).toNat =
        min last.toNat (offset + pieceLen).toNat := by
      rw [Word.toNat_min, Word.toNat_min]
      omega
    generalize min last (min (offset + pieceLen) total) = next at *
    by_cases hfits : offset.toNat + pieceLen.toNat < 18446744073709551616
    · have hmore : next > offset := by
        rw [gt_iff_lt, UInt64.lt_iff_toNat_lt, hnext, Word.toNat_add hfits]
        omega
      have hnone : t.done[i.toNat]? = none := List.getElem?_eq_none (by rw [h.done]; exact hbehind)
      rw [if_pos hmore]
      unfold PieceTrack.addAt
      rw [hnone]
      exact nofun
    · have hwrap : (offset + pieceLen).toNat =
          offset.toNat + pieceLen.toNat - 18446744073709551616 := by
        have := offset.toNat_lt
        have := pieceLen.toNat_lt
        rw [UInt64.toNat_add]
        omega
      have hword := pieceLen.toNat_lt
      have hnot : ¬ next > offset := by
        rw [gt_iff_lt, UInt64.lt_iff_toNat_lt, hnext]
        omega
      have heq : next = (i + 1) * pieceLen := by
        have hplace : next = offset + pieceLen := UInt64.toNat_inj.mp (by omega)
        rw [hplace, hoff]
        grind
      have hstep : (i + 1).toNat = i.toNat + 1 := by
        have hone : (1 : UInt64).toNat = 1 := rfl
        rw [UInt64.toNat_add, hone]
        omega
      rw [if_neg hnot]
      exact ih (UInt64.lt_iff_toNat_lt.mpr (by omega)) (by omega) heq (by omega)

/-- **The loop does not return** when the range reaches into a last piece whose end does not fit. -/
theorem Shape.addLoop_ne_ok (h : Shape total pieceLen t) (hpl : 0 < pieceLen.toNat)
    (hover : 18446744073709551616 ≤ pieces total pieceLen * pieceLen.toNat)
    (hlast : last.toNat ≤ total.toNat)
    (hreach : (pieces total pieceLen - 1) * pieceLen.toNat < last.toNat)
    (hin : i.toNat < pieces total pieceLen) (hlo : i.toNat * pieceLen.toNat ≤ offset.toNat)
    (hhi : offset.toNat < (i.toNat + 1) * pieceLen.toNat) (hlt : offset < last) (fuel : Nat)
    (t' : PieceTrack) : PieceTrack.addLoop last fuel offset i t ≠ .ok t' := by
  have hmax := total.toNat_lt
  have hword := pieceLen.toNat_lt
  induction fuel generalizing t offset i with
  | zero =>
    rw [PieceTrack.addLoop, if_pos hlt]
    exact nofun
  | succ fuel ih =>
    have hnext := toNat_next hpl hin
    by_cases hbefore : i.toNat + 1 < pieces total pieceLen
    · -- a round in a piece before the last one goes on to the next piece
      have hstep : (i.toNat + 1) * pieceLen.toNat ≤
          (pieces total pieceLen - 1) * pieceLen.toNat :=
        Nat.mul_le_mul_right _ (by omega)
      obtain ⟨hi, hmin, hmore, -, heq⟩ :=
        h.addLoop_succ hpl hlast (by omega) hlo hhi hlt fuel
      have hplace : hi.toNat = (i.toNat + 1) * pieceLen.toNat := by omega
      intro hok
      rw [heq] at hok
      obtain ⟨u, hadd, hrest⟩ := Guarded.bind_eq_ok.mp hok
      refine ih (h.addAt hadd) (hnext ▸ hbefore) ?_ ?_ ?_ hrest
      · exact Nat.le_of_eq (by rw [hnext, hplace])
      · rw [hnext, hplace, Nat.add_mul (i.toNat + 1), Nat.one_mul]
        omega
      · rw [UInt64.lt_iff_toNat_lt]
        omega
    · -- in the last one the end of the piece wraps
      have hn : pieces total pieceLen = i.toNat + 1 := by omega
      have hstart := (lt_pieces_iff hpl).mp hin
      rw [hn, Nat.add_mul, Nat.one_mul] at hover
      have hmul : (i * pieceLen).toNat = i.toNat * pieceLen.toNat := by
        rw [UInt64.toNat_mul]
        exact Nat.mod_eq_of_lt (by omega)
      have hwrap : (i * pieceLen + pieceLen).toNat + 18446744073709551616 =
          i.toNat * pieceLen.toNat + pieceLen.toNat := by
        rw [UInt64.toNat_add, hmul]
        omega
      have hsum : i.toNat + pieceLen.toNat ≤ i.toNat * pieceLen.toNat + 1 := by
        cases hi : i.toNat with
        | zero =>
          rw [hi] at hover
          omega
        | succ k =>
          have := Nat.le_mul_of_pos_right k hpl
          rw [Nat.succ_mul]
          omega
      have hpe : i * t.pieceLen + t.lenAt i = min (i * pieceLen + pieceLen) total := by
        unfold PieceTrack.lenAt
        rw [h.hasLen, h.hasTotal]
        grind
      have hmaxlo : max offset (i * pieceLen) = offset := by
        refine UInt64.toNat_inj.mp ?_
        rw [Word.toNat_max, hmul]
        exact Nat.max_eq_left hlo
      have hlt' := UInt64.lt_iff_toNat_lt.mp hlt
      have hback : (min last (min (i * pieceLen + pieceLen) total)).toNat =
          (i * pieceLen + pieceLen).toNat := by
        rw [Word.toNat_min, Word.toNat_min]
        omega
      have hnot : ¬ min last (min (i * pieceLen + pieceLen) total) > offset := by
        rw [gt_iff_lt, UInt64.lt_iff_toNat_lt, hback]
        omega
      rw [PieceTrack.addLoop, if_pos hlt]
      dsimp only
      rw [hpe, h.hasLen, hmaxlo, if_neg hnot]
      refine h.addLoop_lost hpl hlast ?_ (by omega) ?_ (by omega) fuel t'
      · rw [UInt64.lt_iff_toNat_lt]
        omega
      · have hplace : min last (min (i * pieceLen + pieceLen) total) = i * pieceLen + pieceLen :=
          UInt64.toNat_inj.mp hback
        rw [hplace]
        grind

/-- **A call does not return** when its range reaches into such a piece. -/
theorem Shape.addRange_ne_ok (h : Shape total pieceLen t) (hpl : 0 < pieceLen.toNat)
    (hover : 18446744073709551616 ≤ pieces total pieceLen * pieceLen.toNat) (hlen : len ≠ 0)
    (hin : offset.toNat + len.toNat ≤ total.toNat)
    (hreach : (pieces total pieceLen - 1) * pieceLen.toNat < offset.toNat + len.toNat) (fuel : Nat)
    (t' : PieceTrack) : t.addRange fuel offset len ≠ .ok t' := by
  obtain ⟨last, hlast, hlt, heq⟩ := h.addRange_eq hpl fuel hlen hin
  obtain ⟨hlo, hhi⟩ := offset_in_piece hpl offset
  rw [heq]
  exact h.addLoop_ne_ok hpl hover (hlast ▸ hin) (hlast ▸ hreach)
    ((lt_pieces_iff hpl).mpr (by omega)) hlo hhi (UInt64.lt_iff_toNat_lt.mpr hlt) fuel t'

/-- A sequence of calls that returns is one of calls that return. -/
theorem Shape.addRanges (h : Shape total pieceLen t) {ranges : List (UInt64 × UInt64)}
    (hok : PieceTrack.addRanges fuel t ranges = .ok t') :
    ∀ r ∈ ranges, ∃ u u', Shape total pieceLen u ∧ u.addRange fuel r.1 r.2 = .ok u' := by
  induction ranges generalizing t with
  | nil =>
    intro r hr
    cases hr
  | cons s ranges ih =>
    obtain ⟨u, hadd, hrest⟩ := Guarded.bind_eq_ok.mp hok
    intro r hr
    rcases List.mem_cons.mp hr with rfl | hr
    · exact ⟨t, u, h, hadd⟩
    · exact ih (h.addRange hadd) hrest r hr

/-! ## The track of a download -/

end

/-- The calls return, and the track says what the ranges cover. -/
def Tracks (total pieceLen : UInt64) (ranges : List (UInt64 × UInt64)) : Prop :=
  ∃ fuel t, PieceTrack.addRanges fuel (PieceTrack.new total pieceLen) ranges = .ok t ∧
    Exact total (max pieceLen 1) (covered ranges) t

theorem new_max (total pieceLen : UInt64) :
    PieceTrack.new total (max pieceLen 1) = PieceTrack.new total pieceLen := by
  have hmax : max (max pieceLen 1) 1 = max pieceLen 1 := by
    refine UInt64.toNat_inj.mp ?_
    rw [Word.toNat_max, Word.toNat_max]
    omega
  unfold PieceTrack.new
  rw [hmax]

/-- **The track is exact** for every file, every piece length and every sequence of disjoint ranges,
in any order, if and only if the end of the last piece is a 64-bit number or no range reaches into
that piece. -/
theorem tracks_iff (total pieceLen : UInt64) {ranges : List (UInt64 × UInt64)}
    (hin : ∀ r ∈ ranges, r.1.toNat + r.2.toNat ≤ total.toNat)
    (hapart : ranges.Pairwise Apart) :
    Tracks total pieceLen ranges ↔ EndFits total (max pieceLen 1) ranges := by
  have hpl : 0 < (max pieceLen 1).toNat := by
    have hone : (1 : UInt64).toNat = 1 := rfl
    rw [Word.toNat_max, hone]
    omega
  have hstart := counted_new total hpl
  rw [new_max] at hstart
  constructor
  · rintro ⟨fuel, t, hok, -⟩
    refine Decidable.or_iff_not_imp_left.mpr fun hover r hr => ?_
    obtain ⟨u, u', hu, hadd⟩ := hstart.toShape.addRanges hok r hr
    refine Decidable.or_iff_not_imp_left.mpr fun hlen => Nat.le_of_not_lt fun hreach => ?_
    exact hu.addRange_ne_ok hpl (Nat.le_of_not_lt hover) hlen (hin r hr) hreach fuel u' hadd
  · intro hfits
    obtain ⟨t, hok, ht⟩ := hstart.addRanges hpl hin hfits hapart (fun _ _ _ _ => rfl)
      (Nat.le_refl (pieces total (max pieceLen 1)))
    refine ⟨_, t, hok, ht.done, ht.count, ht.bit, ht.bitAt_partialBitfield hpl ?_⟩
    intro j hj hpos
    -- some range has a byte of the piece
    obtain ⟨b, hlo, hb⟩ : ∃ b, j * (max pieceLen 1).toNat ≤ b ∧
        (false || covered ranges b) = true := by
      refine Classical.byContradiction fun hno => Nat.lt_irrefl 0 ?_
      have hzero : countIn total (max pieceLen 1) (fun b => false || covered ranges b) j = 0 :=
        Counting.tally_eq_zero.mpr fun b hlo _ =>
          Bool.eq_false_iff.mpr fun hb => hno ⟨b, hlo, hb⟩
      rw [hzero] at hpos
      exact hpos
    obtain ⟨r, hr, hb⟩ := List.any_eq_true.mp hb
    have hend := of_decide_eq_true (Bool.and_eq_true_iff.mp hb).2
    refine end_fits hpl (hfits.imp_right fun hall => (hall r hr).resolve_left ?_) (hin r hr)
      (Nat.lt_of_le_of_lt hlo hend)
    intro hz
    have hlow := of_decide_eq_true (Bool.and_eq_true_iff.mp hb).1
    rw [hz] at hend
    exact Nat.lt_irrefl b (Nat.lt_of_lt_of_le hend hlow)

theorem apart_of_le {r s : UInt64 × UInt64} (h : r.1.toNat + r.2.toNat ≤ s.1.toNat) :
    Apart r s := by
  rintro b ⟨hr, hs⟩
  have hhi := of_decide_eq_true (Bool.and_eq_true_iff.mp hr).2
  have hlo := of_decide_eq_true (Bool.and_eq_true_iff.mp hs).1
  omega

/-- Ten bytes in pieces of four: a range over two pieces, and one in the short last piece. -/
theorem tracks_ten : Tracks 10 4 [(1, 5), (9, 1)] :=
  (tracks_iff 10 4 (List.forall_mem_cons.mpr ⟨by decide, List.forall_mem_singleton.mpr (by decide)⟩)
    (List.pairwise_cons.mpr ⟨fun s hs => apart_of_le (by
      rw [List.mem_singleton.mp hs]
      decide), List.pairwise_singleton _ _⟩)).mpr (.inl (by decide))

/-- **The end of the last piece wraps.**  A file of `2 ^ 64 - 1` bytes in two pieces, all of whose
bytes are there, as a saved session may say. -/
theorem not_tracks_largest :
    ¬ Tracks 18446744073709551615 9223372036854775808 [(0, 18446744073709551615)] := by
  rintro ⟨fuel, t, hok, -⟩
  have hpl : 0 < (9223372036854775808 : UInt64).toNat := by decide
  have hstart := (counted_new 18446744073709551615 hpl).toShape
  obtain ⟨u, u', hu, hadd⟩ := hstart.addRanges hok _ List.mem_cons_self
  exact hu.addRange_ne_ok hpl (by decide) (by decide) (by decide) (by decide) fuel u' hadd

end XferRust.Split
