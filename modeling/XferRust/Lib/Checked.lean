import XferRust.Lib.Word

/-! # Checked arithmetic on 64-bit words

Operations that return nothing where the machine's would wrap, truncate or underflow.  Each is
characterised by the natural numbers: it returns `c` if and only if `c` is the exact result.
-/
namespace Checked
open Tiling

def add (a b : UInt64) : Option UInt64 :=
  if a.toNat + b.toNat < 18446744073709551616 then some (a + b) else none

def mul (a b : UInt64) : Option UInt64 :=
  if a.toNat * b.toNat < 18446744073709551616 then some (a * b) else none

def sub (a b : UInt64) : Option UInt64 := if b ≤ a then some (a - b) else none

/-- A cast to 32 bits. -/
def toU32 (a : UInt64) : Option UInt32 := if a.toNat < 4294967296 then some a.toUInt32 else none

variable {a b c : UInt64}

theorem add_eq_some : add a b = some c ↔ c.toNat = a.toNat + b.toNat := by
  unfold add
  split
  · rename_i h
    rw [← Word.toNat_add h, Option.some.injEq, UInt64.toNat_inj]
    exact eq_comm
  · rename_i h
    have := c.toNat_lt
    exact ⟨nofun, fun heq => absurd heq (by omega)⟩

theorem mul_eq_some : mul a b = some c ↔ c.toNat = a.toNat * b.toNat := by
  unfold mul
  split
  · rename_i h
    have hmul : (a * b).toNat = a.toNat * b.toNat := by
      rw [UInt64.toNat_mul]
      exact Nat.mod_eq_of_lt h
    rw [← hmul, Option.some.injEq, UInt64.toNat_inj]
    exact eq_comm
  · rename_i h
    have := c.toNat_lt
    exact ⟨nofun, fun heq => absurd heq (by omega)⟩

theorem sub_eq_some : sub a b = some c ↔ c.toNat + b.toNat = a.toNat := by
  unfold sub
  split
  · rename_i h
    rw [UInt64.le_iff_toNat_le] at h
    have hsub := Word.toNat_sub h
    rw [Option.some.injEq, ← UInt64.toNat_inj, hsub]
    omega
  · rename_i h
    rw [UInt64.le_iff_toNat_le] at h
    exact ⟨nofun, fun heq => absurd heq (by omega)⟩

theorem toU32_eq_some {n : UInt32} : toU32 a = some n ↔ n.toNat = a.toNat := by
  unfold toU32
  split
  · rename_i h
    have hcast : a.toUInt32.toNat = a.toNat := by
      rw [UInt64.toNat_toUInt32]
      exact Nat.mod_eq_of_lt h
    rw [← hcast, Option.some.injEq, UInt32.toNat_inj]
    exact eq_comm
  · rename_i h
    have := n.toNat_lt
    exact ⟨nofun, fun heq => absurd heq (by omega)⟩

theorem exists_add (h : a.toNat + b.toNat < 18446744073709551616) :
    ∃ c, add a b = some c ∧ c.toNat = a.toNat + b.toNat :=
  ⟨a + b, if_pos h, Word.toNat_add h⟩

theorem exists_mul (h : a.toNat * b.toNat < 18446744073709551616) :
    ∃ c, mul a b = some c ∧ c.toNat = a.toNat * b.toNat :=
  have hmul : mul a b = some (a * b) := if_pos h
  ⟨a * b, hmul, mul_eq_some.mp hmul⟩

theorem exists_sub (h : b.toNat ≤ a.toNat) : ∃ c, sub a b = some c ∧ c.toNat + b.toNat = a.toNat :=
  have hsub : sub a b = some (a - b) := if_pos (UInt64.le_iff_toNat_le.mpr h)
  ⟨a - b, hsub, sub_eq_some.mp hsub⟩

theorem exists_toU32 (h : a.toNat < 4294967296) : ∃ n, toU32 a = some n ∧ n.toNat = a.toNat :=
  have hcast : toU32 a = some a.toUInt32 := if_pos h
  ⟨a.toUInt32, hcast, toU32_eq_some.mp hcast⟩

theorem exists_toNat {n : Nat} (h : n < 18446744073709551616) : ∃ a : UInt64, a.toNat = n :=
  ⟨UInt64.ofNat n, by rw [UInt64.toNat_ofNat', Nat.mod_eq_of_lt h]⟩

section Sums
variable {α : Type} (f : α → UInt64)

/-- `acc` and the values of `f` over a list, added one after the other. -/
def sumFrom : UInt64 → List α → Option UInt64
  | acc, [] => some acc
  | acc, x :: xs => (add acc (f x)).bind fun acc => sumFrom acc xs

variable {f}

theorem sumFrom_eq_some {acc s : UInt64} {xs : List α} :
    sumFrom f acc xs = some s ↔ s.toNat = acc.toNat + total (fun x => (f x).toNat) xs := by
  induction xs generalizing acc with
  | nil =>
    rw [sumFrom, Option.some.injEq, total_nil, Nat.add_zero, UInt64.toNat_inj]
    exact eq_comm
  | cons x xs ih =>
    rw [sumFrom, Option.bind_eq_some_iff, total_cons]
    constructor
    · rintro ⟨next, hnext, hs⟩
      have := add_eq_some.mp hnext
      have := ih.mp hs
      omega
    · intro hs
      have := s.toNat_lt
      obtain ⟨next, hnext⟩ := @exists_toNat (acc.toNat + (f x).toNat) (by omega)
      exact ⟨next, add_eq_some.mpr hnext, ih.mpr (by omega)⟩

end Sums

/-! ## Rounding up -/

/-- The quotient, rounded up. -/
def ceilDiv (a b : Nat) : Nat := (a + b - 1) / b

/-- `u64::div_ceil`. -/
def divCeil (a b : UInt64) : UInt64 := if a % b > 0 then a / b + 1 else a / b

theorem ceilDiv_of_mod_pos {a b : Nat} (hb : 0 < b) (h : 0 < a % b) :
    ceilDiv a b = a / b + 1 := by
  have hdiv := Nat.div_add_mod a b
  have hlt := Nat.mod_lt a hb
  have hsplit : a + b - 1 = b * (a / b + 1) + (a % b - 1) := by
    rw [Nat.mul_add, Nat.mul_one]
    omega
  have hrest : (a % b - 1) / b = 0 := Nat.div_eq_of_lt (by omega)
  rw [ceilDiv, hsplit, Nat.mul_add_div hb, hrest, Nat.add_zero]

theorem ceilDiv_of_mod_zero {a b : Nat} (hb : 0 < b) (h : a % b = 0) : ceilDiv a b = a / b := by
  have hdiv := Nat.div_add_mod a b
  have hsplit : a + b - 1 = b * (a / b) + (b - 1) := by omega
  have hrest : (b - 1) / b = 0 := Nat.div_eq_of_lt (by omega)
  rw [ceilDiv, hsplit, Nat.mul_add_div hb, hrest, Nat.add_zero]

theorem toNat_divCeil (hb : 0 < b.toNat) : (divCeil a b).toNat = ceilDiv a.toNat b.toNat := by
  have ha := a.toNat_lt
  unfold divCeil
  split
  · rename_i h
    rw [gt_iff_lt, UInt64.lt_iff_toNat_lt, UInt64.toNat_mod] at h
    replace h : 0 < a.toNat % b.toNat := h
    -- a quotient of `2^64 - 1` would need the divisor one, which leaves no remainder
    have hquot : a.toNat / b.toNat + 1 < 18446744073709551616 := by
      have hdiv := Nat.div_add_mod a.toNat b.toNat
      have hmul := Nat.mul_le_mul_right (a.toNat / b.toNat) (Nat.succ_le_of_lt hb)
      omega
    have hone : (1 : UInt64).toNat = 1 := rfl
    rw [ceilDiv_of_mod_pos hb h, Word.toNat_add (by rw [UInt64.toNat_div, hone]; exact hquot),
      UInt64.toNat_div, hone]
  · rename_i h
    rw [gt_iff_lt, UInt64.lt_iff_toNat_lt, UInt64.toNat_mod] at h
    replace h : ¬0 < a.toNat % b.toNat := h
    rw [ceilDiv_of_mod_zero hb (by omega), UInt64.toNat_div]

/-- The multiples of `b` below `a` are those of the numbers below the rounded quotient. -/
theorem lt_ceilDiv_iff {a b i : Nat} (hb : 0 < b) : i < ceilDiv a b ↔ i * b < a := by
  have hdiv := Nat.div_add_mod a b
  have hlt := Nat.mod_lt a hb
  by_cases h : 0 < a % b
  · rw [ceilDiv_of_mod_pos hb h, Nat.lt_succ_iff, Nat.le_div_iff_mul_le hb]
    constructor
    · intro hle
      have hne : i * b ≠ a := by
        rintro rfl
        rw [Nat.mul_mod_left] at h
        exact Nat.lt_irrefl 0 h
      omega
    · exact Nat.le_of_lt
  · rw [ceilDiv_of_mod_zero hb (by omega)]
    have ha : a = a / b * b := by
      rw [Nat.mul_comm]
      omega
    constructor
    · intro hi
      rw [ha]
      exact Nat.mul_lt_mul_of_pos_right hi hb
    · intro hi
      rw [ha] at hi
      exact Nat.lt_of_mul_lt_mul_right hi

end Checked
