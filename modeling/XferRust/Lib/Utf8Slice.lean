import XferRust.Lib.Search

/-! # Slices of a text by bytes

A text is a list of characters, and its UTF-8 form has `byteLen` bytes.  A slice at a byte index
is defined at the boundaries of characters only.  The byte at which a pattern is found is one, and
so is the byte behind it.
-/
namespace Utf8Slice

/-- The length in bytes. -/
def byteLen : List Char → Nat
  | [] => 0
  | c :: cs => c.utf8Size + byteLen cs

/-- The text that bytes are the UTF-8 form of. -/
def fromUtf8 (bytes : List UInt8) : Option (List Char) :=
  (String.fromUTF8? ⟨bytes.toArray⟩).map String.toList

/-- The UTF-8 form of a text. -/
def toUtf8 (l : List Char) : List UInt8 := (String.ofList l).toUTF8.data.toList

/-- The characters of the first `n` bytes; none inside a character or behind the end. -/
def sliceTo : Nat → List Char → Option (List Char)
  | 0, _ => some []
  | _ + 1, [] => none
  | n + 1, c :: cs =>
    if c.utf8Size ≤ n + 1 then (sliceTo (n + 1 - c.utf8Size) cs).map (c :: ·) else none

/-- The characters from byte `n` on. -/
def sliceFrom : Nat → List Char → Option (List Char)
  | 0, l => some l
  | _ + 1, [] => none
  | n + 1, c :: cs => if c.utf8Size ≤ n + 1 then sliceFrom (n + 1 - c.utf8Size) cs else none

/-- The characters from byte `m` to byte `n`. -/
def slice (m n : Nat) (l : List Char) : Option (List Char) :=
  if m ≤ n then (sliceFrom m l).bind (sliceTo (n - m)) else none

/-- The byte at which a pattern first begins. -/
def find (pat l : List Char) : Option Nat :=
  (Search.position pat l).map fun k => byteLen (l.take k)

/-- The byte at which a character last stands. -/
def rfindChar (c : Char) : List Char → Option Nat
  | [] => none
  | d :: l =>
    match rfindChar c l with
    | some n => some (d.utf8Size + n)
    | none => if d = c then some 0 else none

/-- The byte `n` starts a character, or is the end of the text. -/
def Boundary (n : Nat) (l : List Char) : Prop := ∃ a b, l = a ++ b ∧ byteLen a = n

variable {n : Nat} {l m : List Char}

theorem byteLen_append (l m : List Char) : byteLen (l ++ m) = byteLen l + byteLen m := by
  induction l with
  | nil => exact (Nat.zero_add _).symm
  | cons c l ih => rw [List.cons_append, byteLen, byteLen, ih, Nat.add_assoc]

theorem sliceTo_zero (l : List Char) : sliceTo 0 l = some [] := by
  cases l with
  | nil => rfl
  | cons c cs => rfl

/-- What is sliced off is the front of the text with that many bytes. -/
theorem sliceTo_eq_some {a : List Char} (h : sliceTo n l = some a) :
    ∃ b, l = a ++ b ∧ byteLen a = n := by
  induction l generalizing n a with
  | nil =>
    cases n with
    | zero => exact ⟨[], by rw [← Option.some.inj h]; rfl, by rw [← Option.some.inj h]; rfl⟩
    | succ n => cases h
  | cons c cs ih =>
    cases n with
    | zero => exact ⟨c :: cs, by rw [← Option.some.inj h]; rfl, by rw [← Option.some.inj h]; rfl⟩
    | succ n =>
      rw [sliceTo] at h
      split at h
      · obtain ⟨a, ha, rfl⟩ := Option.map_eq_some_iff.mp h
        obtain ⟨b, rfl, hlen⟩ := ih ha
        refine ⟨b, rfl, ?_⟩
        rw [byteLen, hlen]
        omega
      · cases h

/-- **A slice is defined exactly at the boundaries.** -/
theorem sliceTo_isSome_iff : (sliceTo n l).isSome = true ↔ Boundary n l := by
  constructor
  · intro h
    obtain ⟨a, ha⟩ := Option.isSome_iff_exists.mp h
    obtain ⟨b, hl, hlen⟩ := sliceTo_eq_some ha
    exact ⟨a, b, hl, hlen⟩
  · rintro ⟨a, b, rfl, hlen⟩
    induction a generalizing n with
    | nil =>
      rw [← hlen]
      exact (congrArg Option.isSome (sliceTo_zero b)).trans rfl
    | cons c a ih =>
      have hc := c.utf8Size_pos
      rw [byteLen] at hlen
      cases n with
      | zero => omega
      | succ n =>
        rw [List.cons_append, sliceTo, if_pos (by omega), Option.isSome_map]
        exact ih (by omega)

instance decidableBoundary (n : Nat) (l : List Char) : Decidable (Boundary n l) :=
  decidable_of_iff _ sliceTo_isSome_iff

/-- The slice to a boundary is what is in front of it. -/
theorem sliceTo_append (l m : List Char) : sliceTo (byteLen l) (l ++ m) = some l := by
  induction l with
  | nil => exact sliceTo_zero m
  | cons c l ih =>
    have hc := c.utf8Size_pos
    rw [byteLen]
    obtain ⟨n, hn⟩ := Nat.exists_eq_add_of_le' (show 1 ≤ c.utf8Size + byteLen l by omega)
    rw [hn, List.cons_append, sliceTo, if_pos (by omega)]
    have hrest : n + 1 - c.utf8Size = byteLen l := by omega
    rw [hrest, ih]
    rfl

/-- The slice from a boundary is what is behind it. -/
theorem sliceFrom_append (l m : List Char) : sliceFrom (byteLen l) (l ++ m) = some m := by
  induction l with
  | nil =>
    cases m with
    | nil => rfl
    | cons c m => rfl
  | cons c l ih =>
    have hc := c.utf8Size_pos
    rw [byteLen]
    obtain ⟨n, hn⟩ := Nat.exists_eq_add_of_le' (show 1 ≤ c.utf8Size + byteLen l by omega)
    rw [hn, List.cons_append, sliceFrom, if_pos (by omega)]
    have hrest : n + 1 - c.utf8Size = byteLen l := by omega
    rw [hrest, ih]

theorem slice_append (a b c : List Char) :
    slice (byteLen a) (byteLen a + byteLen b) (a ++ (b ++ c)) = some b := by
  rw [slice, if_pos (Nat.le_add_right _ _), sliceFrom_append, Option.bind_some,
    Nat.add_sub_cancel_left, sliceTo_append]

/-- **Where a pattern is found**, the text is cut in front of it and behind it. -/
theorem find_eq_some {pat : List Char} (hne : pat ≠ []) (h : find pat l = some n) :
    ∃ a b, l = a ++ (pat ++ b) ∧ byteLen a = n ∧ Search.FirstAt pat a := by
  obtain ⟨k, hk, rfl⟩ := Option.map_eq_some_iff.mp h
  obtain ⟨a, b, rfl, rfl, hfirst⟩ := Search.position_cut hne hk
  exact ⟨a, b, rfl, by rw [List.take_left], hfirst⟩

theorem rfindChar_eq_some {c : Char} (h : rfindChar c l = some n) :
    ∃ a b, l = a ++ c :: b ∧ byteLen a = n := by
  induction l generalizing n with
  | nil => cases h
  | cons d l ih =>
    rw [rfindChar] at h
    split at h
    · rename_i k hk
      obtain rfl := Option.some.inj h
      obtain ⟨a, b, rfl, rfl⟩ := ih hk
      exact ⟨d :: a, b, rfl, rfl⟩
    · split at h
      · rename_i hd
        obtain rfl := Option.some.inj h
        subst hd
        exact ⟨[], l, rfl, rfl⟩
      · cases h

end Utf8Slice
