/-! # Big-endian bytes of fixed-width integers -/
namespace BigEndian

/-- The two bytes of a `u16`, most significant first. -/
def ofU16 (x : UInt16) : List UInt8 := [UInt8.ofNat (x.toNat / 256), UInt8.ofNat x.toNat]

/-- The `u16` of two bytes, most significant first. -/
def toU16 (a b : UInt8) : UInt16 := UInt16.ofNat (a.toNat * 256 + b.toNat)

/-- The four bytes of a `u32`, most significant first. -/
def ofU32 (x : UInt32) : List UInt8 :=
  [UInt8.ofNat (x.toNat / 16777216), UInt8.ofNat (x.toNat / 65536),
    UInt8.ofNat (x.toNat / 256), UInt8.ofNat x.toNat]

/-- The `u32` of four bytes, most significant first. -/
def toU32 (a b c d : UInt8) : UInt32 :=
  UInt32.ofNat (((a.toNat * 256 + b.toNat) * 256 + c.toNat) * 256 + d.toNat)

theorem toU16_ofU16 (x : UInt16) :
    toU16 (UInt8.ofNat (x.toNat / 256)) (UInt8.ofNat x.toNat) = x := by
  apply UInt16.toNat.inj
  have hx := x.toNat_lt
  simp only [toU16, UInt16.toNat_ofNat', UInt8.toNat_ofNat']
  omega

theorem toU32_ofU32 (x : UInt32) :
    toU32 (UInt8.ofNat (x.toNat / 16777216)) (UInt8.ofNat (x.toNat / 65536))
      (UInt8.ofNat (x.toNat / 256)) (UInt8.ofNat x.toNat) = x := by
  apply UInt32.toNat.inj
  have hx := x.toNat_lt
  simp only [toU32, UInt32.toNat_ofNat', UInt8.toNat_ofNat']
  omega

/-- Two bytes are those of their number. -/
theorem ofU16_toU16 (a b : UInt8) : ofU16 (toU16 a b) = [a, b] := by
  have ha := a.toNat_lt
  have hb := b.toNat_lt
  have hn : (toU16 a b).toNat = a.toNat * 256 + b.toNat := by
    rw [toU16, UInt16.toNat_ofNat']
    omega
  have hhigh : UInt8.ofNat ((a.toNat * 256 + b.toNat) / 256) = a := by
    apply UInt8.toNat.inj
    rw [UInt8.toNat_ofNat']
    omega
  have hlow : UInt8.ofNat (a.toNat * 256 + b.toNat) = b := by
    apply UInt8.toNat.inj
    rw [UInt8.toNat_ofNat']
    omega
  rw [ofU16, hn, hhigh, hlow]

/-- Four bytes are those of their number. -/
theorem ofU32_toU32 (a b c d : UInt8) : ofU32 (toU32 a b c d) = [a, b, c, d] := by
  have ha := a.toNat_lt
  have hb := b.toNat_lt
  have hc := c.toNat_lt
  have hd := d.toNat_lt
  have hn : (toU32 a b c d).toNat =
      ((a.toNat * 256 + b.toNat) * 256 + c.toNat) * 256 + d.toNat := by
    rw [toU32, UInt32.toNat_ofNat']
    omega
  have hbyte : ∀ {n : Nat} {x : UInt8}, n % 256 = x.toNat → UInt8.ofNat n = x := fun h =>
    UInt8.toNat.inj (UInt8.toNat_ofNat'.trans h)
  rw [ofU32, hn, hbyte (x := a) (by omega), hbyte (x := b) (by omega), hbyte (x := c) (by omega),
    hbyte (x := d) (by omega)]

/-! ## Numbers of any width -/

/-- The lowest `k` bytes of a number, most significant first. -/
def ofNat : Nat → Nat → List UInt8
  | 0, _ => []
  | k + 1, n => ofNat k (n / 256) ++ [UInt8.ofNat n]

/-- The number of a list of bytes, most significant first. -/
def toNat (bytes : List UInt8) : Nat := bytes.foldl (fun n b => n * 256 + b.toNat) 0

@[simp] theorem length_ofNat (k n : Nat) : (ofNat k n).length = k := by
  induction k generalizing n with
  | zero => rfl
  | succ k ih => rw [ofNat, List.length_append, ih]; rfl

theorem toNat_ofNat {k n : Nat} (hn : n < Nat.pow 256 k) : toNat (ofNat k n) = n := by
  induction k generalizing n with
  | zero => exact (Nat.lt_one_iff.mp hn).symm
  | succ k ih =>
    have hhigh : toNat (ofNat k (n / 256)) = n / 256 :=
      ih (Nat.div_lt_of_lt_mul (Nat.mul_comm _ _ ▸ hn))
    unfold toNat at hhigh ⊢
    rw [ofNat, List.foldl_append, hhigh]
    simp only [List.foldl_cons, List.foldl_nil, UInt8.toNat_ofNat']
    omega

end BigEndian
