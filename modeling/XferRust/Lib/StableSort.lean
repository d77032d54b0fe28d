import Mathlib.Data.List.Sort

/-! # A stable sort by a natural key

Insertion sort of a list by a key, keeping the order of elements with equal keys.  Only the
two facts a caller of a sort needs are here: the result is a permutation, and it is ascending.
-/
namespace StableSort

variable {α : Type} (key : α → Nat)

/-- Puts `x` in front of the first element with a key that is not smaller. -/
def insertByKey (x : α) : List α → List α
  | [] => [x]
  | y :: ys => if key x ≤ key y then x :: y :: ys else y :: insertByKey x ys

/-- The list in ascending order of the keys. -/
def sortByKey : List α → List α
  | [] => []
  | x :: xs => insertByKey key x (sortByKey xs)

theorem insertByKey_eq (x : α) (ys : List α) :
    insertByKey key x ys = ys.orderedInsert (fun a b => key a ≤ key b) x := by
  induction ys with
  | nil => rfl
  | cons y ys ih => rw [insertByKey, ih, List.orderedInsert_cons]

theorem sortByKey_eq (xs : List α) :
    sortByKey key xs = xs.insertionSort fun a b => key a ≤ key b := by
  induction xs with
  | nil => rfl
  | cons x xs ih => rw [sortByKey, insertByKey_eq, ih, List.insertionSort_cons]

theorem sortByKey_perm (xs : List α) : (sortByKey key xs).Perm xs :=
  sortByKey_eq key xs ▸ List.perm_insertionSort _ xs

theorem sortByKey_sorted (xs : List α) :
    (sortByKey key xs).Pairwise fun a b => key a ≤ key b :=
  haveI : Std.Total fun a b : α => key a ≤ key b := ⟨fun _ _ => Nat.le_total _ _⟩
  haveI : IsTrans α fun a b => key a ≤ key b := ⟨fun _ _ _ => Nat.le_trans⟩
  sortByKey_eq key xs ▸ List.pairwise_insertionSort _ xs

@[simp] theorem mem_sortByKey {x : α} {xs : List α} : x ∈ sortByKey key xs ↔ x ∈ xs :=
  (sortByKey_perm key xs).mem_iff

end StableSort
