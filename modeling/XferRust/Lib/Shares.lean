import Mathlib.Data.List.Perm.Basic

/-! # A range shared out

The numbers below `count` go to workers, `chunk` of them to each in turn; the last shares may be
shorter, or empty.  Together the shares are the range.
-/
namespace Shares

/-- The share of a worker. -/
def share (count chunk worker : Nat) : List Nat :=
  List.range' (worker * chunk) (min (worker * chunk + chunk) count - worker * chunk)

theorem shares_eq (count chunk workers : Nat) :
    (List.range workers).flatMap (share count chunk) =
      List.range (min (workers * chunk) count) := by
  induction workers with
  | zero => rw [Nat.zero_mul, Nat.zero_min]; rfl
  | succ workers ih =>
    rw [List.range_succ, List.flatMap_append, ih, List.flatMap_singleton, share, Nat.succ_mul,
      List.range_eq_range', List.range_eq_range']
    by_cases hfull : workers * chunk ≤ count
    · have happend := @List.range'_append_1 0 (workers * chunk)
        (min (workers * chunk + chunk) count - workers * chunk)
      rw [Nat.zero_add, Nat.add_sub_cancel' (Nat.le_min.mpr ⟨Nat.le_add_right _ _, hfull⟩)]
        at happend
      rw [Nat.min_eq_left hfull, happend]
    · have hnone : min (workers * chunk + chunk) count - workers * chunk = 0 := by omega
      rw [hnone, List.range'_zero, List.append_nil, Nat.min_eq_right (by omega),
        Nat.min_eq_right (by omega)]

/-- **The shares are the range**, where the chunks are large enough. -/
theorem shares_range {count chunk workers : Nat} (h : count ≤ workers * chunk) :
    (List.range workers).flatMap (share count chunk) = List.range count := by
  rw [shares_eq, Nat.min_eq_right h]

end Shares
