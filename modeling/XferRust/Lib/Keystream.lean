/-! # Ciphers that add a keystream

A generator `next` yields a byte and the generator after it; a text is enciphered, and deciphered
again, by adding the bytes in turn.  How far the generator is depends on how much went through it
and on nothing else, and two ends agree as long as they have put the same number of bytes
through the same generator.
-/
namespace Keystream

variable {σ : Type} (next : σ → UInt8 × σ)

/-- The text with the keystream added, and the generator after it. -/
def process : σ → List UInt8 → List UInt8 × σ
  | s, [] => ([], s)
  | s, b :: bs =>
    let (k, s') := next s
    let (out, s'') := process s' bs
    ((b ^^^ k) :: out, s'')

/-- The generator `n` bytes further on. -/
def advance : Nat → σ → σ
  | 0, s => s
  | n + 1, s => advance n (next s).2

variable {next}

@[simp] theorem process_snd (s : σ) (bs : List UInt8) :
    (process next s bs).2 = advance next bs.length s := by
  induction bs generalizing s with
  | nil => rfl
  | cons b bs ih => exact ih (next s).2

@[simp] theorem length_process (s : σ) (bs : List UInt8) :
    (process next s bs).1.length = bs.length := by
  induction bs generalizing s with
  | nil => rfl
  | cons b bs ih => exact congrArg (· + 1) (ih (next s).2)

theorem advance_add (m n : Nat) (s : σ) :
    advance next (m + n) s = advance next n (advance next m s) := by
  induction m generalizing s with
  | zero => rw [Nat.zero_add]; rfl
  | succ m ih => rw [Nat.succ_add]; exact ih (next s).2

/-- The second part of a text goes through the generator that the first part leaves. -/
theorem process_append (s : σ) (xs ys : List UInt8) :
    (process next s (xs ++ ys)).1 =
      (process next s xs).1 ++ (process next (advance next xs.length s) ys).1 := by
  induction xs generalizing s with
  | nil => rfl
  | cons x xs ih => exact congrArg (List.cons _) (ih (next s).2)

/-- **Deciphering is enciphering again.** -/
theorem process_process (s : σ) (bs : List UInt8) :
    (process next s (process next s bs).1).1 = bs := by
  induction bs generalizing s with
  | nil => rfl
  | cons b bs ih =>
    have hb : b ^^^ (next s).1 ^^^ (next s).1 = b := by
      rw [UInt8.xor_assoc, UInt8.xor_self, UInt8.xor_zero]
    exact List.cons_eq_cons.mpr ⟨hb, ih (next s).2⟩

end Keystream
