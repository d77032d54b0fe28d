/-! # Decimal numerals

Natural numbers as strings of ASCII digits.  `digits` writes the canonical numeral, without a
leading zero, and `value` reads any string of digits.  A numeral is canonical if and only if it
is what `digits` writes for its value, and no other numeral of that value is shorter.
-/
namespace Decimal

/-- An ASCII digit. -/
def isDigit (b : UInt8) : Bool := 48 ≤ b && b ≤ 57

/-- The digit of a number below ten. -/
def digit (n : Nat) : UInt8 := UInt8.ofNat (48 + n)

/-- The canonical numeral. -/
def digits (n : Nat) : List UInt8 := (Nat.toDigits 10 n).map fun c => UInt8.ofNat c.toNat

/-- The number a string of digits stands for. -/
def value (ds : List UInt8) : Nat := ds.foldl (fun n d => 10 * n + (d.toNat - 48)) 0

theorem isDigit_iff {b : UInt8} : isDigit b = true ↔ 48 ≤ b.toNat ∧ b.toNat ≤ 57 := by
  simp only [isDigit, Bool.and_eq_true, decide_eq_true_eq, UInt8.le_iff_toNat_le]
  exact Iff.rfl

variable {n : Nat} {ds : List UInt8}

theorem digitChar_toNat (h : n < 10) : n.digitChar.toNat = 48 + n := by
  match n, h with
  | 0, _ | 1, _ | 2, _ | 3, _ | 4, _ | 5, _ | 6, _ | 7, _ | 8, _ | 9, _ => rfl

theorem toNat_digit (h : n < 10) : (digit n).toNat = 48 + n := by
  rw [digit, UInt8.toNat_ofNat']
  omega

/-- The recursion of `digits`, from the last digit. -/
theorem digits_eq (n : Nat) :
    digits n = if n < 10 then [digit n] else digits (n / 10) ++ [digit (n % 10)] := by
  rw [digits, Nat.toDigits_eq_if (by decide)]
  split
  · rename_i h
    simp only [List.map_cons, List.map_nil, digit, digitChar_toNat h]
  · have h := Nat.mod_lt n (show 10 > 0 by decide)
    simp only [List.map_append, List.map_cons, List.map_nil, digit, digits, digitChar_toNat h]

theorem digits_ne_nil (n : Nat) : digits n ≠ [] := by
  rw [digits, Ne, List.map_eq_nil_iff]
  exact Nat.toDigits_ne_nil

theorem isDigit_digit (h : n < 10) : isDigit (digit n) = true := by
  rw [isDigit_iff, toNat_digit h]
  omega

theorem isDigit_of_mem_digits {b : UInt8} (h : b ∈ digits n) : isDigit b = true := by
  induction n using Nat.strongRecOn with
  | ind n ih =>
    rw [digits_eq] at h
    split at h
    · rename_i hn
      obtain rfl := List.mem_singleton.mp h
      exact isDigit_digit hn
    · rename_i hn
      rcases List.mem_append.mp h with h | h
      · exact ih (n / 10) (by omega) h
      · obtain rfl := List.mem_singleton.mp h
        exact isDigit_digit (Nat.mod_lt n (by decide))

theorem value_concat (ds : List UInt8) (d : UInt8) :
    value (ds ++ [d]) = 10 * value ds + (d.toNat - 48) := by
  rw [value, List.foldl_append]
  rfl

@[simp] theorem value_nil : value [] = 0 := rfl

theorem value_digits (n : Nat) : value (digits n) = n := by
  induction n using Nat.strongRecOn with
  | ind n ih =>
    rw [digits_eq]
    split
    · rename_i hn
      rw [← List.nil_append [digit n], value_concat, toNat_digit hn, value_nil]
      omega
    · rename_i hn
      rw [value_concat, ih (n / 10) (by omega), toNat_digit (Nat.mod_lt n (by decide))]
      omega

theorem digits_inj {m : Nat} (h : digits m = digits n) : m = n := by
  rw [← value_digits m, h, value_digits]

theorem value_singleton (d : UInt8) : value [d] = d.toNat - 48 := by
  rw [← List.nil_append [d], value_concat, value_nil]
  omega

theorem eq_concat (h : ds ≠ []) : ∃ init d, ds = init ++ [d] :=
  ⟨ds.dropLast, ds.getLast h, (List.dropLast_concat_getLast h).symm⟩

theorem value_lt (hds : ∀ d ∈ ds, isDigit d = true) : value ds < Nat.pow 10 ds.length := by
  induction h : ds.length generalizing ds with
  | zero =>
    rw [List.length_eq_zero_iff.mp h]
    decide
  | succ k ih =>
    obtain ⟨init, d, rfl⟩ := @eq_concat ds (by rintro rfl; cases h)
    rw [List.length_append, List.length_singleton] at h
    have hinit := ih (fun x hx => hds x (List.mem_append_left _ hx)) (show init.length = k by omega)
    have hd := isDigit_iff.mp (hds d (List.mem_append_right _ List.mem_cons_self))
    rw [value_concat]
    show _ < Nat.pow 10 k * 10
    omega

/-- Every nonempty string of digits is as long as the canonical numeral of its value, or longer. -/
theorem length_digits_value_le (hne : ds ≠ []) (hds : ∀ d ∈ ds, isDigit d = true) :
    (digits (value ds)).length ≤ ds.length := by
  rw [digits, List.length_map]
  exact (Nat.length_toDigits_le_iff (by decide) (List.length_pos_iff.mpr hne)).mpr (value_lt hds)

/-- Without a leading zero. -/
def Canonical (ds : List UInt8) : Prop :=
  ds ≠ [] ∧ (∀ d ∈ ds, isDigit d = true) ∧ (ds.head? = some 48 → ds.length = 1)

theorem Canonical.init {init : List UInt8} {d : UInt8} (h : Canonical (init ++ [d]))
    (hne : init ≠ []) : Canonical init ∧ init.head? ≠ some 48 := by
  have hhead : init.head? ≠ some 48 := by
    intro hh
    have hlen := h.2.2 (by rw [List.head?_append, hh]; rfl)
    rw [List.length_append, List.length_singleton] at hlen
    exact hne (List.length_eq_zero_iff.mp (by omega))
  exact ⟨⟨hne, fun x hx => h.2.1 x (List.mem_append_left _ hx), fun hh => absurd hh hhead⟩, hhead⟩

theorem value_pos (h : Canonical ds) (hhead : ds.head? ≠ some 48) : 0 < value ds := by
  induction hl : ds.length generalizing ds with
  | zero => exact absurd (List.length_eq_zero_iff.mp hl) h.1
  | succ k ih =>
    obtain ⟨init, d, rfl⟩ := eq_concat h.1
    have hd := isDigit_iff.mp (h.2.1 d (List.mem_append_right _ List.mem_cons_self))
    by_cases hnil : init = []
    · subst hnil
      rw [List.nil_append, value_singleton]
      have hne : d.toNat ≠ 48 := fun hd48 =>
        hhead (by rw [show d = 48 from UInt8.toNat_inj.mp hd48]; rfl)
      omega
    · rw [List.length_append, List.length_singleton] at hl
      have hpos := ih (h.init hnil).1 (h.init hnil).2 (by omega)
      rw [value_concat]
      omega

theorem canonical_digits (n : Nat) : Canonical (digits n) := by
  refine ⟨digits_ne_nil n, fun d hd => isDigit_of_mem_digits hd, ?_⟩
  induction n using Nat.strongRecOn with
  | ind n ih =>
    intro h
    rw [digits_eq] at h ⊢
    split at h
    · rename_i hn
      rw [if_pos hn]
      rfl
    · rename_i hn
      exfalso
      obtain ⟨x, xs, hx⟩ := List.exists_cons_of_ne_nil (digits_ne_nil (n / 10))
      rw [hx] at h
      -- only the numeral of zero begins with a zero
      have hone := ih (n / 10) (by omega) (by rw [hx]; exact h)
      rw [hx] at hone
      obtain rfl : xs = [] := List.length_eq_zero_iff.mp (by simpa using hone)
      have hval := value_digits (n / 10)
      obtain rfl := Option.some.inj h
      rw [hx, show value [48] = 0 from rfl] at hval
      omega

/-- **A canonical numeral is the one `digits` writes.** -/
theorem digits_value (h : Canonical ds) : digits (value ds) = ds := by
  induction hl : ds.length generalizing ds with
  | zero => exact absurd (List.length_eq_zero_iff.mp hl) h.1
  | succ k ih =>
    obtain ⟨init, d, rfl⟩ := eq_concat h.1
    have hd := isDigit_iff.mp (h.2.1 d (List.mem_append_right _ List.mem_cons_self))
    have hdigit : digit (d.toNat - 48) = d := by
      refine UInt8.toNat_inj.mp ?_
      rw [toNat_digit (by omega)]
      omega
    rw [value_concat, digits_eq]
    by_cases hnil : init = []
    · subst hnil
      rw [value_nil, if_pos (by omega), Nat.mul_zero, Nat.zero_add, hdigit]
      rfl
    · obtain ⟨hinit, hhead⟩ := h.init hnil
      have hpos := value_pos hinit hhead
      rw [List.length_append, List.length_singleton] at hl
      rw [if_neg (by omega), show (10 * value init + (d.toNat - 48)) / 10 = value init by omega,
        show (10 * value init + (d.toNat - 48)) % 10 = d.toNat - 48 by omega, ih hinit (by omega),
        hdigit]

end Decimal
