import XferRust.Playlist.ClearBytes

/-! # What decryption inverts

`decrypt_block` undoes an encryption in the same pattern, for any pattern, and touches no byte
between the blocks.  Emulation prevention that was added is removed again.  The other way round a
unit may end with an emulation prevention byte, where its data ends with two zeros: that byte is
removed like the others, and not added again.
-/
namespace XferRust.Playlist
open Guarded Interleaved

/-! ## Units -/

/-- What H.264 asks of the bytes of a unit: no three bytes that have to be escaped, nothing above 3
behind an emulation prevention byte, and no zero at the end. -/
structure NalUnit (nal : List UInt8) : Prop where
  plain : ∀ b, b < 3 → ¬[0, 0, b] <:+: nal
  escapes : ∀ b, 3 < b → ¬[0, 0, 3, b] <:+: nal
  ends : nal.getLast? ≠ some 0

theorem eq_three {b : UInt8} (hle : b ≤ 3) (hless : ¬b < 3) : b = 3 :=
  UInt8.le_antisymm hle (UInt8.not_lt.mp hless)

/-- Behind up to two zeros: all that keeps a unit from being escaped is a byte 3 at its end. -/
theorem escapedFrom_iff {nal : List UInt8} {zeros : Nat} (hzeros : zeros ≤ 2)
    (hplain : ∀ b, b < 3 → ¬[0, 0, b] <:+: List.replicate zeros 0 ++ nal)
    (hescapes : ∀ b, 3 < b → ¬[0, 0, 3, b] <:+: List.replicate zeros 0 ++ nal) :
    EscapedFrom zeros nal ↔ ¬[0, 0, 3] <:+ List.replicate zeros 0 ++ nal := by
  induction nal generalizing zeros with
  | nil =>
    have hshort : ¬[(0 : UInt8), 0, 3] <:+ List.replicate zeros 0 ++ [] := fun h => by
      have hlen := h.length_le
      simp only [List.length_append, List.length_replicate, List.length_cons,
        List.length_nil] at hlen
      omega
    exact iff_of_true trivial hshort
  | cons b nal ih =>
    -- What holds of the unit from here on, and of all of it behind the zeros.
    have hrest : nal <:+ List.replicate zeros 0 ++ b :: nal :=
      ⟨List.replicate zeros 0 ++ [b], by rw [List.append_assoc]; rfl⟩
    have hnext := @ih 0 (Nat.zero_le _) (fun c hc h => hplain c hc (h.trans hrest.isInfix))
      fun c hc h => hescapes c hc (h.trans hrest.isInfix)
    rw [EscapedFrom]
    by_cases hcode : 2 ≤ zeros ∧ b ≤ 3
    · rw [if_pos hcode]
      obtain rfl : zeros = 2 := Nat.le_antisymm hzeros hcode.1
      obtain rfl : b = 3 := eq_three hcode.2 fun hb => hplain b hb ⟨[], nal, rfl⟩
      cases nal with
      | nil =>
        refine iff_of_false (fun h => ?_) fun h => h (List.suffix_refl _)
        obtain ⟨c, hc, -⟩ := h.2.1
        cases hc
      | cons c nal =>
        have hc : c ≤ 3 := UInt8.not_lt.mp fun hc => hescapes c hc ⟨[], nal, rfl⟩
        have hsuffix : [(0 : UInt8), 0, 3] <:+ 0 :: 0 :: 3 :: c :: nal ↔
            [(0 : UInt8), 0, 3] <:+ c :: nal := by
          simp [List.suffix_cons_iff]
        refine Iff.trans ⟨fun h => h.2.2, fun h => ⟨rfl, ⟨c, rfl, hc⟩, h⟩⟩ (hnext.trans ?_)
        exact not_congr hsuffix.symm
    · rw [if_neg hcode]
      by_cases hb : b = 0
      · subst hb
        have hless : zeros < 2 := Nat.lt_of_not_le fun h => hcode ⟨h, by decide⟩
        have hcount : countZero zeros 0 = zeros + 1 := by
          rw [countZero, if_pos rfl, Nat.mod_eq_of_lt (by omega)]
        have hmove : List.replicate zeros (0 : UInt8) ++ 0 :: nal =
            List.replicate (zeros + 1) 0 ++ nal := by
          rw [List.replicate_succ', List.append_assoc]
          rfl
        rw [hcount]
        rw [hmove] at hplain hescapes ⊢
        exact ih hless hplain hescapes
      · rw [countZero, if_neg hb]
        refine hnext.trans (not_congr ?_)
        obtain rfl | rfl | rfl : zeros = 0 ∨ zeros = 1 ∨ zeros = 2 := by omega
        · simp [List.suffix_cons_iff, Ne.symm hb]
        · simp [List.replicate, List.suffix_cons_iff, Ne.symm hb]
        · have hthree : 3 ≠ b := fun h => hcode ⟨Nat.le_refl 2, h ▸ by decide⟩
          simp [List.replicate, List.suffix_cons_iff, Ne.symm hb, hthree]

/-- **A unit is escaped** unless it ends with an emulation prevention byte. -/
theorem NalUnit.escaped_iff {nal : List UInt8} (h : NalUnit nal) :
    Escaped nal ↔ ¬[0, 0, 3] <:+ nal :=
  escapedFrom_iff (Nat.zero_le 2) h.plain h.escapes

/-! ## Protected blocks -/

/-- Bytes encrypted block by block, in the pattern `decrypt_block` is handed. -/
def encryptBlock (cipher : Octets 16 → Octets 16) (iv : Octets 16) (data : List UInt8) (skip : Nat)
    (trailing : Bool) : List UInt8 :=
  walk (samplePattern skip trailing) (cbcEncrypt cipher) iv data

theorem decryptBlock_encryptBlock (c : BlockPair) (iv : Octets 16) (data : List UInt8) (skip : Nat)
    (trailing : Bool) :
    SampleDecryptor.decryptBlock { cipher := c.dec, baseIv := iv }
      (encryptBlock c.enc iv data skip trailing) skip trailing = .ok data := by
  rw [decryptBlock_eq_walk]
  exact congrArg Except.ok (walk_walk (cbcDecrypt_encrypt c) iv data)

/-- The bytes that a decryption in a pattern leaves alone. -/
def Untouched (skip : Nat) (trailing : Bool) (data plain : List UInt8) : Prop :=
  plain.length = data.length ∧
    ∀ i, ¬(samplePattern skip trailing).Protects data.length i → plain[i]? = data[i]?

theorem decryptBlock_untouched (dec : SampleDecryptor) (data : List UInt8) (skip : Nat)
    (trailing : Bool) :
    ∃ plain, dec.decryptBlock data skip trailing = .ok plain ∧ Untouched skip trailing data plain :=
  ⟨_, decryptBlock_eq_walk dec data skip trailing, length_walk _ _ _, fun _ h => getElem?_walk _ h⟩

theorem new_ok {aes : BlockCipher} {key : List UInt8} {iv : Octets 16} {dec : SampleDecryptor}
    (h : SampleDecryptor.new aes key iv = .ok dec) : dec = { cipher := aes key, baseIv := iv } := by
  rw [SampleDecryptor.new] at h
  split at h
  · exact (Except.ok.inj h).symm
  · cases h

/-- **What decryption inverts.**  Emulation prevention that was added is removed, and a unit gets
back what was removed exactly if it does not end with an emulation prevention byte; under every key
and vector, and in every pattern, a decrypted buffer is what was encrypted, and the bytes outside
the blocks are what they were. -/
theorem sampleAes_inverts (aes : List UInt8 → BlockPair) (key : List UInt8) (iv : Octets 16)
    (dec : SampleDecryptor)
    (hnew : SampleDecryptor.new (fun key => (aes key).dec) key iv = .ok dec) :
    (∀ clean, removeEmulationPrevention (addEmulationPrevention clean) = clean) ∧
    (∀ nal, NalUnit nal →
      (addEmulationPrevention (removeEmulationPrevention nal) = nal ↔ ¬[0, 0, 3] <:+ nal)) ∧
    ∀ data skip trailing,
      dec.decryptBlock (encryptBlock (aes key).enc iv data skip trailing) skip trailing =
        .ok data ∧
      ∃ plain, dec.decryptBlock data skip trailing = .ok plain ∧
        Untouched skip trailing data plain := by
  obtain rfl := new_ok hnew
  refine ⟨remove_add, fun nal h => add_remove_iff.trans h.escaped_iff, fun data skip trailing => ?_⟩
  exact ⟨decryptBlock_encryptBlock (aes key) iv data skip trailing,
    decryptBlock_untouched _ data skip trailing⟩

/-! ### At given units -/

/-- The cipher that has two blocks change places. -/
def BlockPair.swap (u v : Octets 16) : BlockPair where
  enc b := if b = u then v else if b = v then u else b
  dec b := if b = u then v else if b = v then u else b
  enc_dec b := by grind
  dec_enc b := by grind

/-- What AES makes of 16 zeros, under a key of 16 zeros. -/
def zerosEncrypted : Octets 16 :=
  ⟨[0x66, 0xE9, 0x4B, 0xD4, 0xEF, 0x8A, 0x2C, 0x3B, 0x88, 0x4C, 0xFA, 0x59, 0xCA, 0x34, 0x2B,
    0x2E], rfl⟩

theorem encryptBlock_zeros (trailing : Bool) :
    encryptBlock (BlockPair.swap zeroBlock zerosEncrypted).enc zeroBlock (List.replicate 17 0) 144
      trailing = zerosEncrypted.bytes ++ [0] := by
  rw [encryptBlock, walk_long _ (by cases trailing <;> decide),
    walk_short _ (by cases trailing <;> decide)]
  cases trailing <;> decide

/-- A slice that holds `00 00 01`, and 17 zeros encrypted under a key of zeros. -/
theorem zeros_restored :
    addEmulationPrevention (removeEmulationPrevention [0x65, 0, 0, 3, 1]) = [0x65, 0, 0, 3, 1] ∧
      SampleDecryptor.decryptBlock
        { cipher := (BlockPair.swap zeroBlock zerosEncrypted).dec, baseIv := zeroBlock }
        (zerosEncrypted.bytes ++ [0]) 144 false = .ok (List.replicate 17 0) := by
  have h := sampleAes_inverts (fun _ => .swap zeroBlock zerosEncrypted) (List.replicate 16 0)
    zeroBlock _ rfl
  refine ⟨(h.2.1 _ ⟨?_, ?_, by decide⟩).mpr (by decide), ?_⟩
  · intro b hb hin
    obtain rfl : b = 3 := by simpa [List.infix_cons_iff] using hin
    exact absurd hb (by decide)
  · intro b hb hin
    obtain rfl : b = 1 := by simpa [List.infix_cons_iff] using hin
    exact absurd hb (by decide)
  · have hplain := (h.2.2 (List.replicate 17 0) 144 false).1
    dsimp only at hplain
    rw [encryptBlock_zeros] at hplain
    exact hplain

/-- **A slice whose data ends with two zeros** is a unit that ends with an emulation prevention
byte, and loses it. -/
theorem endsEscaped_loses :
    ¬∀ nal, NalUnit nal → addEmulationPrevention (removeEmulationPrevention nal) = nal := by
  intro h
  refine absurd (h [0x41, 0x80, 0, 0, 3] ⟨?_, ?_, by decide⟩) (by decide)
  · intro b hb hin
    obtain rfl : b = 3 := by simpa [List.infix_cons_iff] using hin
    exact absurd hb (by decide)
  · intro b _ hin
    simp [List.infix_cons_iff] at hin

end XferRust.Playlist
