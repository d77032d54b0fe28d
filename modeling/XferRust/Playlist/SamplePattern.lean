import XferRust.Lib.Interleaved
import XferRust.Playlist.SampleAesSafety

/-! # The pattern of a protected block

`decrypt_block` is handed how many clear bytes stand behind each block of 16, and whether the last
16 bytes are a block.  What its loop does to the bytes is a walk in that pattern, whose steps are
those of cipher block chaining.
-/
namespace XferRust.Playlist
open Guarded Interleaved

/-! ## Blocks -/

/-- `xorBlock`, as a block. -/
def xorOctets (a b : Octets 16) : Octets 16 := ⟨xorBlock a b, length_xorBlock a b⟩

theorem xorOctets_cancel (a b : Octets 16) : xorOctets (xorOctets a b) b = a := by
  apply Octets.ext_bytes
  refine List.ext_getElem ?_ fun i h₁ h₂ => ?_
  · exact ((length_xorBlock _ _).trans a.length_eq.symm)
  · simp [xorOctets, xorBlock, UInt8.xor_assoc]

theorem xorOctets_cancel_left (a b : Octets 16) : xorOctets a (xorOctets a b) = b := by
  apply Octets.ext_bytes
  refine List.ext_getElem ?_ fun i h₁ h₂ => ?_
  · exact ((length_xorBlock _ _).trans b.length_eq.symm)
  · simp [xorOctets, xorBlock, ← UInt8.xor_assoc]

/-- A block cipher under a key, and its inverse. -/
structure BlockPair where
  enc : Octets 16 → Octets 16
  dec : Octets 16 → Octets 16
  enc_dec : ∀ b, enc (dec b) = b
  dec_enc : ∀ b, dec (enc b) = b

/-- A block, decrypted behind the block of ciphertext before it. -/
def cbcDecrypt (cipher : Octets 16 → Octets 16) (prev ct : Octets 16) : Octets 16 × Octets 16 :=
  (xorOctets (cipher ct) prev, ct)

/-- A block, encrypted behind the block of ciphertext before it. -/
def cbcEncrypt (cipher : Octets 16 → Octets 16) (prev block : Octets 16) : Octets 16 × Octets 16 :=
  let ct := cipher (xorOctets block prev)
  (ct, ct)

theorem cbcEncrypt_decrypt (c : BlockPair) (prev ct : Octets 16) :
    cbcEncrypt c.enc prev (cbcDecrypt c.dec prev ct).1 = (ct, (cbcDecrypt c.dec prev ct).2) := by
  simp only [cbcEncrypt, cbcDecrypt]
  rw [xorOctets_cancel, c.enc_dec]

theorem cbcDecrypt_encrypt (c : BlockPair) (prev block : Octets 16) :
    cbcDecrypt c.dec prev (cbcEncrypt c.enc prev block).1 =
      (block, (cbcEncrypt c.enc prev block).2) := by
  simp only [cbcEncrypt, cbcDecrypt]
  rw [c.dec_enc, xorOctets_cancel]

/-! ## The loop -/

/-- The pattern that `decrypt_block` is handed. -/
def samplePattern (skip : Nat) (trailing : Bool) : Pattern 16 where
  skip := skip
  least := if trailing then 16 else 17
  pos := by decide
  le_least := by cases trailing <;> decide

theorem samplePattern_least (skip : Nat) (trailing : Bool) (rem : Nat) :
    (samplePattern skip trailing).least ≤ rem ↔ if trailing then 16 ≤ rem else 16 < rem := by
  cases trailing <;> exact Iff.rfl

theorem ofSlice_take (data : List UInt8) : Octets.ofSlice 16 (data.take 16) = .ofSlice 16 data := by
  apply Octets.ext_bytes
  show (data.take 16 ++ List.replicate 16 0).take 16 = (data ++ List.replicate 16 0).take 16
  rw [List.take_append, List.take_append, List.take_take, Nat.min_self, List.length_take]
  by_cases h : 16 ≤ data.length
  · rw [Nat.min_eq_left h, Nat.sub_self, Nat.sub_eq_zero_of_le h]
  · rw [Nat.min_eq_right (Nat.le_of_lt (Nat.lt_of_not_le h))]

/-- **The loop is a walk** over what is left. -/
theorem blockLoop_eq_walk (cipher : Octets 16 → Octets 16) {skip : Nat} {trailing : Bool}
    {rounds pos : Nat} {before data : List UInt8} {prev : Octets 16} (hpos : before.length = pos)
    (hrounds : data.length < rounds) :
    blockLoop cipher skip trailing rounds (before ++ data) prev pos =
      .ok (before ++ walk (samplePattern skip trailing) (cbcDecrypt cipher) prev data) := by
  induction rounds generalizing pos before data prev with
  | zero => exact absurd hrounds (Nat.not_lt_zero _)
  | succ rounds ih =>
    have hlen : (before ++ data).length = pos + data.length := by rw [List.length_append, hpos]
    rw [blockLoop]
    by_cases hempty : data = []
    · subst hempty
      have hleast := (samplePattern skip trailing).le_least
      rw [if_neg (by rw [hlen]; simp), walk_short _ (by rw [List.length_nil]; omega)]
    have hdata : 0 < data.length := List.length_pos_iff.mpr hempty
    have hrem : (before ++ data).length - pos = data.length := by omega
    rw [if_pos (by omega), sub_ok (by omega), hrem]
    have hcovers := samplePattern_least skip trailing data.length
    by_cases hlong : (samplePattern skip trailing).least ≤ data.length
    case neg =>
      -- The rest is clear, and the loop comes to its end.
      have hshort : data.length ≤ 16 := by
        cases trailing
        · exact Nat.le_of_lt_succ (Nat.lt_of_not_le hlong)
        · exact Nat.le_of_lt (Nat.lt_of_not_le hlong)
      have hend : ¬pos + 16 + min skip ((before ++ data).length - (pos + 16)) <
          (before ++ data).length := by
        rw [hlen]
        omega
      refine (if_neg (mt hcovers.mpr hlong)).trans ?_
      rw [walk_short _ hlong]
      cases rounds with
      | zero => omega
      | succ rounds =>
        rw [blockLoop]
        exact if_neg hend
    have hfull : 16 ≤ data.length :=
      Nat.le_trans (samplePattern skip trailing).le_least hlong
    refine (if_pos (hcovers.mp hlong)).trans ?_
    have hslice : (slice (before ++ data) pos (pos + 16) : Guarded String (List UInt8)) =
        .ok (data.take 16) := by
      rw [slice_ok (by omega) (by omega), List.drop_left' hpos, Nat.add_sub_cancel_left]
    have hwrite (block : List UInt8) (hblock : block.length = 16) :
        (overwrite (before ++ data) pos block : Guarded String (List UInt8)) =
          .ok (before ++ block ++ data.drop 16) := by
      rw [overwrite, if_pos (show pos + block.length ≤ (before ++ data).length by omega),
        List.take_left' hpos, hblock, List.drop_append,
        List.drop_eq_nil_of_le (show before.length ≤ pos + 16 by omega), hpos,
        Nat.add_sub_cancel_left, List.nil_append]
    rw [hslice]
    show (overwrite (before ++ data) pos (xorBlock (cipher (.ofSlice 16 (data.take 16))) prev) >>=
      _) = _
    rw [ofSlice_take, hwrite _ (length_xorBlock _ _), walk_long _ hlong]
    -- The next block begins behind this one and the clear bytes that follow it.
    let block := xorBlock (cipher (.ofSlice 16 data)) prev
    have hblock : block.length = 16 := length_xorBlock _ _
    have hsplit : before ++ block ++ data.drop 16 =
        (before ++ (block ++ (data.drop 16).take skip)) ++ data.drop (16 + skip) := by
      rw [← List.drop_drop, List.append_assoc, List.append_assoc, List.append_assoc,
        List.take_append_drop]
    have hlength : (before ++ block ++ data.drop 16).length = pos + data.length := by
      simp only [List.length_append, List.length_drop, hpos, hblock]
      omega
    have hnext : (before ++ (block ++ (data.drop 16).take skip)).length =
        pos + 16 + min skip ((before ++ block ++ data.drop 16).length - (pos + 16)) := by
      rw [hlength]
      simp only [List.length_append, List.length_take, List.length_drop, hpos, hblock]
      omega
    have hstep := @ih _ _ (data.drop (16 + skip)) (.ofSlice 16 data) hnext
      (by rw [List.length_drop]; omega)
    rw [← hsplit] at hstep
    refine hstep.trans ?_
    simp only [List.append_assoc]
    rfl

/-- **`decrypt_block` is a walk** that begins with the vector. -/
theorem decryptBlock_eq_walk (dec : SampleDecryptor) (data : List UInt8) (skip : Nat)
    (trailing : Bool) :
    dec.decryptBlock data skip trailing =
      .ok (walk (samplePattern skip trailing) (cbcDecrypt dec.cipher) dec.baseIv data) :=
  @blockLoop_eq_walk dec.cipher skip trailing _ 0 [] data dec.baseIv rfl (Nat.lt_succ_self _)

end XferRust.Playlist
