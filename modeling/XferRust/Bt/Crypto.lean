import XferRust.Lib.BigEndian
import XferRust.Lib.Keystream

/-! # The primitives of the encrypted handshake

RC4 with a discarded start, the Diffie–Hellman group of 768 bits, and the keys and hashes that
are derived from a shared secret, as in `xfer-crypto`.  SHA-1 is a parameter.
-/
namespace XferRust.Bt

/-! ## RC4 -/

/-- `Rc4`. -/
structure Rc4 where
  s : Vector UInt8 256
  i : UInt8
  j : UInt8

namespace Rc4

/-- `next_byte`. -/
def nextByte (r : Rc4) : UInt8 × Rc4 :=
  let i := r.i + 1
  let j := r.j + r.s.get ⟨i.toNat, i.toNat_lt⟩
  let s := r.s.swap i.toNat j.toNat i.toNat_lt j.toNat_lt
  let t := s.get ⟨i.toNat, i.toNat_lt⟩ + s.get ⟨j.toNat, j.toNat_lt⟩
  (s.get ⟨t.toNat, t.toNat_lt⟩, { s, i, j })

/-- One round of the key schedule of `Rc4::new`. -/
def schedule (key : List UInt8) (sj : Vector UInt8 256 × UInt8) (k : Fin 256) :
    Vector UInt8 256 × UInt8 :=
  let j := sj.2 + sj.1[k] + key.getD (k % key.length) 0
  (sj.1.swap k j.toNat k.isLt j.toNat_lt, j)

/-- `Rc4::new`. -/
def new (key : List UInt8) (discard : Nat) : Rc4 :=
  let (s, _) := (List.finRange 256).foldl (schedule key) (Vector.ofFn fun i => UInt8.ofNat i, 0)
  Keystream.advance nextByte discard { s, i := 0, j := 0 }

/-- `process`. -/
abbrev process (r : Rc4) (data : List UInt8) : List UInt8 × Rc4 :=
  Keystream.process nextByte r data

/-- The stream `n` bytes further on. -/
abbrev after (r : Rc4) (n : Nat) : Rc4 := Keystream.advance nextByte n r

/-- What `process` makes of the data. -/
abbrev enc (r : Rc4) (data : List UInt8) : List UInt8 := (r.process data).1

theorem process_eq (r : Rc4) (data : List UInt8) :
    r.process data = (r.enc data, r.after data.length) :=
  Prod.ext rfl (Keystream.process_snd r data)

theorem after_after (r : Rc4) (m n : Nat) : (r.after m).after n = r.after (m + n) :=
  (Keystream.advance_add m n r).symm

theorem enc_append (r : Rc4) (xs ys : List UInt8) :
    r.enc (xs ++ ys) = r.enc xs ++ (r.after xs.length).enc ys :=
  Keystream.process_append r xs ys

theorem enc_enc (r : Rc4) (data : List UInt8) : r.enc (r.enc data) = data :=
  Keystream.process_process r data

theorem length_enc (r : Rc4) (data : List UInt8) : (r.enc data).length = data.length :=
  Keystream.length_process r data

end Rc4

/-! ## Diffie–Hellman -/

/-- `DH_P_HEX`, in its four lines of forty-eight digits. -/
def dhPrime : Nat :=
  ((0xFFFFFFFFFFFFFFFFC90FDAA22168C234C4C6628B80DC1CD1 * Nat.pow 2 192 +
    0x29024E088A67CC74020BBEA63B139B22514A08798E3404DD) * Nat.pow 2 192 +
    0xEF9519B3CD3A431B302B0A6DF25F14374FE1356D6D51C245) * Nat.pow 2 192 +
    0xE485B576625E7EC6F44C42E9A63A36210000000000090563

/-- `DH_G`. -/
def dhG : Nat := 2

/-- `DH_KEY_LEN`, and `KEY_LEN` of the handshake. -/
def keyLen : Nat := 96

/-- `DhKeyPair::public_key` for a private key. -/
@[irreducible] def publicKey (x : Nat) : List UInt8 :=
  BigEndian.ofNat keyLen (Nat.pow dhG x % dhPrime)

/-- `compute_shared_secret`. -/
@[irreducible] def computeSharedSecret (x : Nat) (peerPublicKey : List UInt8) : List UInt8 :=
  BigEndian.ofNat keyLen (Nat.pow (BigEndian.toNat peerPublicKey) x % dhPrime)

/-- `is_degenerate_key`: the number 0 or 1. -/
def isDegenerateKey (key : List UInt8) : Bool :=
  key.all (· = 0) || (key.getLastD 0 = 1 && key.dropLast.all (· = 0))

theorem toNat_publicKey (x : Nat) : BigEndian.toNat (publicKey x) = Nat.pow dhG x % dhPrime := by
  unfold publicKey
  exact BigEndian.toNat_ofNat
    (Nat.lt_trans (Nat.mod_lt _ (by decide : 0 < dhPrime)) (by decide : dhPrime < Nat.pow 256 keyLen))

/-- **Both ends compute the same secret.** -/
theorem computeSharedSecret_comm (x y : Nat) :
    computeSharedSecret x (publicKey y) = computeSharedSecret y (publicKey x) := by
  have hpow (x y : Nat) :
      Nat.pow (Nat.pow dhG y % dhPrime) x % dhPrime = Nat.pow dhG (y * x) % dhPrime :=
    (Nat.pow_mod _ _ _).symm.trans (congrArg (· % dhPrime) (Nat.pow_mul dhG y x).symm)
  unfold computeSharedSecret
  rw [toNat_publicKey, toNat_publicKey, hpow, hpow, Nat.mul_comm]

@[simp] theorem length_publicKey (x : Nat) : (publicKey x).length = keyLen := by
  unfold publicKey
  exact BigEndian.length_ofNat _ _

/-! ## Keys and hashes -/

/-- `VC`. -/
def vc : List UInt8 := List.replicate 8 0

/-- `CRYPTO_PLAINTEXT`. -/
def cryptoPlaintext : UInt32 := 0x01

/-- `CRYPTO_RC4`. -/
def cryptoRc4 : UInt32 := 0x02

/-- `LABEL_KEY_A`, the bytes of "keyA". -/
def labelKeyA : List UInt8 := [0x6b, 0x65, 0x79, 0x41]

/-- `LABEL_KEY_B`, the bytes of "keyB". -/
def labelKeyB : List UInt8 := [0x6b, 0x65, 0x79, 0x42]

/-- `RC4_DISCARD`. -/
def rc4Discard : Nat := 1024

section Derived

variable (sha1 : List UInt8 → List UInt8)

/-- `mse_rc4_key`. -/
def mseRc4Key (label shared skey : List UInt8) : List UInt8 := sha1 (label ++ shared ++ skey)

/-- The stream of the initiator's bytes, keyed by `derive_rc4_streams`. -/
@[irreducible] def streamA (shared skey : List UInt8) : Rc4 :=
  Rc4.new (mseRc4Key sha1 labelKeyA shared skey) rc4Discard

/-- The stream of the responder's bytes. -/
@[irreducible] def streamB (shared skey : List UInt8) : Rc4 :=
  Rc4.new (mseRc4Key sha1 labelKeyB shared skey) rc4Discard

/-- `MseRole`. -/
inductive MseRole where
  | initiator
  | responder

/-- `derive_rc4_streams`: the stream to send with and the stream to receive with. -/
def deriveRc4Streams (shared skey : List UInt8) : MseRole → Rc4 × Rc4
  | .initiator => (streamA sha1 shared skey, streamB sha1 shared skey)
  | .responder => (streamB sha1 shared skey, streamA sha1 shared skey)

/-- `req1_hash`, over "req1" and the secret. -/
def req1Hash (shared : List UInt8) : List UInt8 := sha1 ([0x72, 0x65, 0x71, 0x31] ++ shared)

/-- `req2_hash`. -/
def req2Hash (skey : List UInt8) : List UInt8 := sha1 ([0x72, 0x65, 0x71, 0x32] ++ skey)

/-- `req3_hash`. -/
def req3Hash (shared : List UInt8) : List UInt8 := sha1 ([0x72, 0x65, 0x71, 0x33] ++ shared)

/-- `obfuscated_skey_hash`. -/
def obfuscatedSkeyHash (shared skey : List UInt8) : List UInt8 :=
  List.zipWith (· ^^^ ·) (req2Hash sha1 skey) (req3Hash sha1 shared)

/-- `skey_matches_obfuscated`. -/
def skeyMatchesObfuscated (received shared skey : List UInt8) : Bool :=
  obfuscatedSkeyHash sha1 shared skey = received

end Derived

end XferRust.Bt
