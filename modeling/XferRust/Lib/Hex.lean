/-! # Hexadecimal text

Two digits for each byte, lower-case when written, of either case when read. -/
namespace Hex

/-- The digit of a value below 16. -/
def digit (n : Nat) : Char :=
  if n < 10 then Char.ofNat (48 + n) else Char.ofNat (87 + n)

/-- The value of a digit. -/
def value (c : Char) : Option Nat :=
  if 48 ≤ c.toNat ∧ c.toNat ≤ 57 then some (c.toNat - 48)
  else if 97 ≤ c.toNat ∧ c.toNat ≤ 102 then some (c.toNat - 87)
  else if 65 ≤ c.toNat ∧ c.toNat ≤ 70 then some (c.toNat - 55)
  else none

def encode (bytes : List UInt8) : String :=
  String.ofList (bytes.flatMap fun b => [digit (b.toNat / 16), digit (b.toNat % 16)])

/-- The bytes of a text of digits; an odd digit at the end is an error. -/
def decodeDigits : List Char → Option (List UInt8)
  | [] => some []
  | [_] => none
  | hi :: lo :: rest => do
    let high ← value hi
    let low ← value lo
    let bytes ← decodeDigits rest
    some (UInt8.ofNat (high * 16 + low) :: bytes)

def decode (text : String) : Option (List UInt8) := decodeDigits text.toList

theorem value_digit : ∀ n < 16, value (digit n) = some n := by decide

/-- **Round trip.** -/
theorem decode_hex (bytes : List UInt8) : decode (encode bytes) = some bytes := by
  rw [decode, encode, String.toList_ofList]
  induction bytes with
  | nil => rfl
  | cons b bytes ih =>
    have hb := b.toNat_lt
    have hbyte : UInt8.ofNat (b.toNat / 16 * 16 + b.toNat % 16) = b := by
      rw [Nat.div_add_mod', UInt8.ofNat_toNat]
    rw [List.flatMap_cons, List.cons_append, List.cons_append, List.nil_append, decodeDigits,
      value_digit _ (by omega), value_digit _ (by omega), ih]
    simp only [Option.bind_eq_bind, Option.bind_some, hbyte]

end Hex
