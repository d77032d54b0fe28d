/-! # Counting in a range

`tally p a n` is how many of the `n` numbers from `a` on have `p`.
-/
namespace Counting

def tally (p : Nat → Bool) (a n : Nat) : Nat := (List.range' a n).countP p

variable {p q : Nat → Bool} {a m n : Nat}

theorem tally_zero (p : Nat → Bool) (a : Nat) : tally p a 0 = 0 := rfl

theorem tally_add (p : Nat → Bool) (a m n : Nat) :
    tally p a (m + n) = tally p a m + tally p (a + m) n := by
  rw [tally, ← List.range'_append_1, List.countP_append]
  rfl

theorem tally_succ (p : Nat → Bool) (a n : Nat) :
    tally p a (n + 1) = tally p a n + if p (a + n) then 1 else 0 := by
  rw [tally_add]
  show _ + (List.countP p [a + n]) = _
  rw [List.countP_singleton]

theorem tally_le (p : Nat → Bool) (a n : Nat) : tally p a n ≤ n := by
  have := List.countP_le_length (p := p) (l := List.range' a n)
  rwa [List.length_range'] at this

theorem tally_eq_iff : tally p a n = n ↔ ∀ g, a ≤ g → g < a + n → p g = true := by
  have hall := List.countP_eq_length (p := p) (l := List.range' a n)
  rw [List.length_range'] at hall
  rw [tally, hall]
  exact ⟨fun h g hlo hhi => h g (List.mem_range'_1.mpr ⟨hlo, hhi⟩), fun h g hg =>
    h g (List.mem_range'_1.mp hg).1 (List.mem_range'_1.mp hg).2⟩

theorem tally_eq_zero : tally p a n = 0 ↔ ∀ g, a ≤ g → g < a + n → p g = false := by
  rw [tally, List.countP_eq_zero]
  refine ⟨fun h g hlo hhi => ?_, fun h g hg => ?_⟩
  · exact Bool.eq_false_iff.mpr (h g (List.mem_range'_1.mpr ⟨hlo, hhi⟩))
  · have := List.mem_range'_1.mp hg
    exact Bool.eq_false_iff.mp (h g this.1 this.2)

theorem tally_congr (h : ∀ g, a ≤ g → g < a + n → p g = q g) : tally p a n = tally q a n := by
  rw [tally, tally]
  refine List.countP_congr fun g hg => ?_
  have := List.mem_range'_1.mp hg
  rw [h g this.1 this.2]

/-- What is counted in a range is counted from its start. -/
theorem tally_shift (p : Nat → Bool) (a b n : Nat) :
    tally (fun k => p (k + b)) a n = tally p (a + b) n := by
  induction n with
  | zero => rfl
  | succ n ih => rw [tally_succ, tally_succ, ih, Nat.add_right_comm]

/-- **The part of a range in another one.** -/
theorem tally_between (lo hi a n : Nat) :
    tally (fun g => decide (lo ≤ g) && decide (g < hi)) a n = min hi (a + n) - max lo a := by
  induction n with
  | zero =>
    rw [tally_zero]
    omega
  | succ n ih =>
    rw [tally_succ, ih]
    by_cases h : lo ≤ a + n ∧ a + n < hi
    · rw [decide_eq_true h.1, decide_eq_true h.2, if_pos (Bool.and_self true)]
      omega
    · rw [if_neg (by rw [Bool.and_eq_true, decide_eq_true_eq, decide_eq_true_eq]; exact h)]
      omega

/-- What has one of two properties that exclude each other. -/
theorem tally_or (h : ∀ g, a ≤ g → g < a + n → ¬ (p g = true ∧ q g = true)) :
    tally (fun g => p g || q g) a n = tally p a n + tally q a n := by
  induction n with
  | zero => rfl
  | succ n ih =>
    rw [tally_succ, tally_succ, tally_succ, ih fun g hlo hhi => h g hlo (by omega)]
    have := h (a + n) (by omega) (by omega)
    cases hp : p (a + n) <;> cases hq : q (a + n) <;> simp [hp, hq] at this ⊢ <;> omega

/-- What has a weaker property is counted as often at least. -/
theorem tally_le_tally (h : ∀ g, a ≤ g → g < a + n → p g = true → q g = true) :
    tally p a n ≤ tally q a n :=
  List.countP_mono_left fun g hg => h g (List.mem_range'_1.mp hg).1 (List.mem_range'_1.mp hg).2

/-- It is counted more often where it alone holds of a number. -/
theorem tally_lt_tally {g : Nat}
    (h : ∀ g, a ≤ g → g < a + n → p g = true → q g = true) (hlo : a ≤ g) (hhi : g < a + n)
    (hp : p g = false) (hq : q g = true) : tally p a n < tally q a n := by
  have hsplit : ∀ r : Nat → Bool, tally r a n =
      tally r a (g - a) + ((if r g then 1 else 0) + tally r (g + 1) (a + n - (g + 1))) := by
    intro r
    have hone := Counting.tally_succ r a (g - a)
    have hall := Counting.tally_add r a (g - a + 1) (a + n - (g + 1))
    rw [show a + (g - a + 1) = g + 1 by omega, show g - a + 1 + (a + n - (g + 1)) = n by omega,
      hone, show a + (g - a) = g by omega] at hall
    omega
  have hfirst := @tally_le_tally p q a (g - a) fun k h₁ h₂ => h k h₁ (by omega)
  have hlast := @tally_le_tally p q (g + 1) (a + n - (g + 1)) fun k h₁ h₂ =>
    h k (by omega) (by omega)
  rw [hsplit p, hsplit q, hp, hq]
  show _ + (0 + _) < _ + (1 + _)
  omega

end Counting
