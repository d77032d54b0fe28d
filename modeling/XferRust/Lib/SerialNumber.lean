/-! # Sixteen-bit serial numbers and the numbering they wrap

A stream of items is numbered `0, 1, 2, …`, and item `i` carries the sixteen-bit serial
number `nth isn i`.  Serial numbers come round every `2 ^ 16` items, so they determine the
true number only of items that are close: two items less than `2 ^ 15` apart are ordered by
the sign of the wrapped difference of their serial numbers (`toInt_sub`), and two items
less than `2 ^ 16` apart are equal when their serial numbers are (`nth_inj`).
-/
namespace SerialNumber

/-- The serial number of item `i` of a stream whose first item carries `isn`. -/
def nth (isn : UInt16) (i : Nat) : UInt16 := isn + UInt16.ofNat i

@[simp] theorem nth_zero (isn : UInt16) : nth isn 0 = isn := by
  simp [nth]

theorem toNat_nth (isn : UInt16) (i : Nat) : (nth isn i).toNat = (isn.toNat + i) % 65536 := by
  rw [nth, UInt16.toNat_add, UInt16.toNat_ofNat']
  omega

theorem nth_succ (isn : UInt16) (i : Nat) : nth isn (i + 1) = nth isn i + 1 := by
  apply UInt16.toNat.inj
  rw [UInt16.toNat_add, toNat_nth, toNat_nth, UInt16.toNat_one]
  omega

theorem nth_add (isn : UInt16) (i j : Nat) : nth isn (i + j) = nth (nth isn i) j := by
  apply UInt16.toNat.inj
  rw [toNat_nth, toNat_nth, toNat_nth]
  omega

/-- The wrapped distance of two items, the later one first. -/
theorem toNat_sub (isn : UInt16) {i j : Nat} (h : j ≤ i) (hd : i - j < 65536) :
    (nth isn i - nth isn j).toNat = i - j := by
  have hi := toNat_nth isn i
  have hj := toNat_nth isn j
  rw [UInt16.toNat_sub]
  omega

theorem nth_inj (isn : UInt16) {i j : Nat} (hij : i < j + 65536) (hji : j < i + 65536)
    (h : nth isn i = nth isn j) : i = j := by
  have he : (nth isn i).toNat = (nth isn j).toNat := by rw [h]
  rw [toNat_nth, toNat_nth] at he
  omega

/-- **The sign of the wrapped difference.**  Of two items less than `2 ^ 15` apart, the
signed difference of the serial numbers is the difference of the true numbers. -/
theorem toInt_sub (isn : UInt16) {i j : Nat} (hij : i < j + 32768) (hji : j < i + 32768) :
    (nth isn i - nth isn j).toInt16.toInt = (i : Int) - j := by
  have hi := toNat_nth isn i
  have hj := toNat_nth isn j
  have hs := UInt16.toNat_sub (nth isn i) (nth isn j)
  change (nth isn i - nth isn j).toBitVec.toInt = _
  rw [BitVec.toInt_eq_toNat_cond, UInt16.toNat_toBitVec]
  split <;> omega

end SerialNumber
