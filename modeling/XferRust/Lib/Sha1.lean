import XferRust.Lib.BigEndian

/-! # SHA-1

The digest of FIPS 180-4, on lists of bytes.
-/
namespace Sha1

def rotl (n x : UInt32) : UInt32 := (x <<< n) ||| (x >>> (32 - n))

/-- The message with its padding: a one bit, zeros, and the length in bits as a `u64`. -/
def padded (message : List UInt8) : List UInt8 :=
  let zeros := (119 - message.length % 64) % 64
  message ++ 0x80 :: (List.replicate zeros 0 ++ BigEndian.ofNat 8 (8 * message.length))

/-- The words of a block, in order. -/
def words : List UInt8 → List UInt32
  | b0 :: b1 :: b2 :: b3 :: rest => BigEndian.toU32 b0 b1 b2 b3 :: words rest
  | _ => []

/-- `n` more words of the schedule; the last word comes first in the list. -/
def extend : Nat → List UInt32 → List UInt32
  | 0, ws => ws
  | n + 1, ws =>
    extend n (rotl 1 (ws.getD 2 0 ^^^ ws.getD 7 0 ^^^ ws.getD 13 0 ^^^ ws.getD 15 0) :: ws)

/-- The five words of the state. -/
structure State where
  a : UInt32
  b : UInt32
  c : UInt32
  d : UInt32
  e : UInt32

def initial : State :=
  { a := 0x67452301, b := 0xEFCDAB89, c := 0x98BADCFE, d := 0x10325476, e := 0xC3D2E1F0 }

/-- The logical function and the constant of round `t`. -/
def mix (t : Nat) (b c d : UInt32) : UInt32 × UInt32 :=
  if t < 20 then ((b &&& c) ||| (~~~b &&& d), 0x5A827999)
  else if t < 40 then (b ^^^ c ^^^ d, 0x6ED9EBA1)
  else if t < 60 then ((b &&& c) ||| (b &&& d) ||| (c &&& d), 0x8F1BBCDC)
  else (b ^^^ c ^^^ d, 0xCA62C1D6)

/-- The rounds from `t` on, one for each word. -/
def rounds : Nat → List UInt32 → State → State
  | _, [], s => s
  | t, w :: ws, s =>
    let (f, k) := mix t s.b s.c s.d
    rounds (t + 1) ws
      { a := rotl 5 s.a + f + s.e + k + w, b := s.a, c := rotl 30 s.b, d := s.c, e := s.d }

def compress (s : State) (block : List UInt8) : State :=
  let r := rounds 0 (extend 64 (words block).reverse).reverse s
  { a := s.a + r.a, b := s.b + r.b, c := s.c + r.c, d := s.d + r.d, e := s.e + r.e }

/-- The first `n` blocks of sixty-four bytes. -/
def blocks : Nat → List UInt8 → List (List UInt8)
  | 0, _ => []
  | n + 1, bytes => bytes.take 64 :: blocks n (bytes.drop 64)

def digest (message : List UInt8) : List UInt8 :=
  let bytes := padded message
  let s := (blocks (bytes.length / 64) bytes).foldl compress initial
  BigEndian.ofU32 s.a ++ BigEndian.ofU32 s.b ++ BigEndian.ofU32 s.c ++ BigEndian.ofU32 s.d ++
    BigEndian.ofU32 s.e

theorem length_digest (message : List UInt8) : (digest message).length = 20 := rfl

/-- The digest of "abc". -/
example : digest [0x61, 0x62, 0x63] =
    [0xa9, 0x99, 0x3e, 0x36, 0x47, 0x06, 0x81, 0x6a, 0xba, 0x3e, 0x25, 0x71, 0x78, 0x50, 0xc2,
      0x6c, 0x9c, 0xd0, 0xd8, 0x9d] := by decide +kernel

end Sha1
