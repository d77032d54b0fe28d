import XferRust.Lib.Tiling

/-! # 64-bit words and natural numbers

What `UInt64.toNat` does to the operations the writer of this library's users needs and core
has no lemma for: minima, maxima, halves, and sums over a list, which wrap; and what the bits of
a byte that is put together of two are.
-/
namespace Word
open Tiling

theorem toNat_min (a b : UInt64) : (min a b).toNat = min a.toNat b.toNat := by
  show (if a ≤ b then a else b).toNat = min a.toNat b.toNat
  split
  · rename_i h
    rw [UInt64.le_iff_toNat_le] at h
    exact (Nat.min_eq_left h).symm
  · rename_i h
    rw [UInt64.le_iff_toNat_le] at h
    exact (Nat.min_eq_right (by omega)).symm

theorem toNat_max (a b : UInt64) : (max a b).toNat = max a.toNat b.toNat := by
  show (if a ≤ b then b else a).toNat = max a.toNat b.toNat
  split
  · rename_i h
    rw [UInt64.le_iff_toNat_le] at h
    exact (Nat.max_eq_right h).symm
  · rename_i h
    rw [UInt64.le_iff_toNat_le] at h
    exact (Nat.max_eq_left (by omega)).symm

theorem toNat_half (a : UInt64) : (a / 2).toNat = a.toNat / 2 := UInt64.toNat_div a 2

/-- A subtraction that does not wrap. -/
theorem toNat_sub {a b : UInt64} (h : b.toNat ≤ a.toNat) : (a - b).toNat = a.toNat - b.toNat :=
  UInt64.toNat_sub_of_le _ _ (UInt64.le_iff_toNat_le.mpr h)

/-- An addition that does not wrap. -/
theorem toNat_add {a b : UInt64} (h : a.toNat + b.toNat < 18446744073709551616) :
    (a + b).toNat = a.toNat + b.toNat := by
  rw [UInt64.toNat_add]
  exact Nat.mod_eq_of_lt h

section Sums
variable {α : Type} (f : α → UInt64)

/-- The wrapping sum of `f` over a list. -/
def sum : List α → UInt64
  | [] => 0
  | x :: xs => f x + sum xs

/-- A sum of words is the sum of their values, wrapped. -/
theorem toNat_sum (xs : List α) :
    (sum f xs).toNat = total (fun x => (f x).toNat) xs % 18446744073709551616 := by
  induction xs with
  | nil => rfl
  | cons x xs ih =>
    rw [sum, UInt64.toNat_add, ih, total_cons]
    omega

variable {f}

theorem sum_append (xs ys : List α) : sum f (xs ++ ys) = sum f xs + sum f ys := by
  induction xs with
  | nil =>
    simp only [List.nil_append, sum]
    grind
  | cons x xs ih =>
    simp only [List.cons_append, sum, ih]
    grind

/-- Replacing one element changes the sum by the difference. -/
theorem sum_set {xs : List α} {i : Nat} {x : α} (h : xs[i]? = some x) (y : α) :
    sum f (xs.set i y) + f x = sum f xs + f y := by
  induction xs generalizing i with
  | nil => cases h
  | cons z zs ih =>
    cases i with
    | zero =>
      obtain rfl := Option.some.inj h
      simp only [List.set_cons_zero, sum]
      grind
    | succ i =>
      have := ih h
      simp only [List.set_cons_succ, sum]
      grind

end Sums

theorem or_and_distrib (a b c : UInt8) : (a ||| b) &&& c = (a &&& c) ||| (b &&& c) :=
  UInt8.toBitVec_inj.mp BitVec.and_or_distrib_right

end Word
