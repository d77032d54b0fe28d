import Mathlib.Data.List.Forall2
import XferRust.Playlist.NalCut

/-! # What decryption leaves alone

Only units of the types 1 and 5 that are longer than 48 bytes are protected.  All that stands
around them is to be as it was: what is in front of the first start code, the codes, the other
units and the zeros between units.  `leavesClear_iff` says which payloads come out so, and are
restored by the inverse cipher: those without anything in front of the first code, and where each
unit that is decrypted is escaped and ends with clear bytes that are not all zeros.
-/
namespace XferRust.Playlist
open Guarded AnnexB Interleaved

/-! ## Emulation prevention -/

/-- Behind so many zeros, the bytes hold nothing up to 3 behind two zeros but emulation prevention
bytes, each with a byte up to 3 behind it. -/
def EscapedFrom : Nat → List UInt8 → Prop
  | _, [] => True
  | zeros, b :: nal =>
    if 2 ≤ zeros ∧ b ≤ 3 then b = 3 ∧ (∃ c, nal.head? = some c ∧ c ≤ 3) ∧ EscapedFrom 0 nal
    else EscapedFrom (countZero zeros b) nal

/-- A unit is escaped as the standard asks for. -/
def Escaped (nal : List UInt8) : Prop := EscapedFrom 0 nal

theorem escapedFrom_addLoop (nal : List UInt8) (zeros : Nat) : EscapedFrom zeros (addLoop zeros nal) := by
  induction nal generalizing zeros with
  | nil => trivial
  | cons b nal ih =>
    rw [addLoop]
    split
    · rename_i h
      rw [EscapedFrom, if_pos ⟨h.1, by decide⟩]
      refine ⟨rfl, ⟨b, rfl, h.2⟩, ?_⟩
      rw [EscapedFrom, if_neg (by simp)]
      exact ih _
    · rename_i h
      rw [EscapedFrom, if_neg h]
      exact ih _

variable {b : UInt8}

theorem le_three (h : b = 3) : b ≤ 3 :=
  UInt8.le_iff_toNat_le.mpr (Nat.le_of_eq (congrArg UInt8.toNat h))

variable {zeros : Nat} {nal : List UInt8} {ps : List Piece}

theorem removeLoop_addLoop (nal : List UInt8) : removeLoop zeros (addLoop zeros nal) = nal := by
  induction nal generalizing zeros with
  | nil => rfl
  | cons b nal ih =>
    rw [addLoop]
    split
    · rename_i h
      rw [removeLoop, if_pos ⟨h.1, rfl⟩, removeLoop, if_neg (by simp), ih]
    · rename_i h
      have hno : ¬(2 ≤ zeros ∧ b = 3) := fun hb => h ⟨hb.1, le_three hb.2⟩
      rw [removeLoop, if_neg hno, ih]

theorem addLoop_removeLoop (h : EscapedFrom zeros nal) :
    addLoop zeros (removeLoop zeros nal) = nal := by
  induction nal generalizing zeros with
  | nil => rfl
  | cons b nal ih =>
    rw [EscapedFrom] at h
    split at h
    · rename_i hb
      obtain ⟨rfl, ⟨c, hc, hle⟩, h⟩ := h
      have hrest := ih h
      match nal, hc with
      | c' :: nal, hc =>
        obtain rfl := Option.some.inj hc
        rw [removeLoop, if_neg (by simp), addLoop, if_neg (by simp)] at hrest
        rw [removeLoop, if_pos ⟨hb.1, rfl⟩, removeLoop, if_neg (by simp), addLoop,
          if_pos ⟨hb.1, hle⟩, hrest]
    · rename_i hb
      have hno : ¬(2 ≤ zeros ∧ b = 3) := fun h3 => hb ⟨h3.1, le_three h3.2⟩
      rw [removeLoop, if_neg hno, addLoop, if_neg hb, ih h]

/-- **Emulation prevention is taken away again.** -/
theorem remove_add (nal : List UInt8) :
    removeEmulationPrevention (addEmulationPrevention nal) = nal :=
  removeLoop_addLoop nal

/-- **What is put back is what was taken away** exactly in a unit that is escaped. -/
theorem add_remove_iff :
    addEmulationPrevention (removeEmulationPrevention nal) = nal ↔ Escaped nal := by
  constructor
  · intro h
    exact h ▸ escapedFrom_addLoop _ 0
  · exact addLoop_removeLoop

theorem EscapedFrom.codeless (h : EscapedFrom zeros nal) : Codeless nal := by
  induction nal generalizing zeros with
  | nil => exact codeless_nil
  | cons b nal ih =>
    refine codeless_cons.mpr ⟨fun hcode => ?_, ?_⟩
    · obtain ⟨rest, hrest⟩ := startCode_prefix_iff.mp hcode
      rw [hrest] at h
      match zeros with
      | 0 => simp [EscapedFrom, countZero] at h
      | 1 => simp [EscapedFrom, countZero] at h
      | zeros + 2 => simp [EscapedFrom] at h
    · rw [EscapedFrom] at h
      split at h
      · exact ih h.2.2
      · exact ih h

/-- The zeros at the end of an escaped unit, by those at the end of the bare one: behind each pair
of them an emulation prevention byte has come in. -/
def zerosLeft (k : Nat) : Nat := if k = 0 then 0 else 2 - k % 2

theorem addLoop_append (hb : b ≠ 0) (l : List UInt8) (front : List UInt8) (zeros : Nat) :
    ∃ escaped, addLoop zeros (front ++ b :: l) = escaped ++ b :: addLoop 0 l := by
  induction front generalizing zeros with
  | nil =>
    rw [List.nil_append, addLoop, countZero, countZero, if_neg hb, if_neg hb]
    split
    · exact ⟨[3], rfl⟩
    · exact ⟨[], rfl⟩
  | cons c front ih =>
    rw [List.cons_append, addLoop]
    split
    · obtain ⟨escaped, h⟩ := ih (countZero 0 c)
      exact ⟨3 :: c :: escaped, by rw [h]; rfl⟩
    · obtain ⟨escaped, h⟩ := ih (countZero zeros c)
      exact ⟨c :: escaped, by rw [h]; rfl⟩

/-- The zeros behind a pair of them. -/
theorem zerosAtEnd_pairs (hb : b ≠ 0) (l : List UInt8) (k : Nat) :
    zerosAtEnd (l ++ b :: 0 :: 0 :: addLoop 2 (List.replicate k 0)) = 2 - k % 2 := by
  induction k using Nat.strongRecOn generalizing l b with
  | ind k ih =>
    match k with
    | 0 => exact zerosAtEnd_append hb l 2
    | 1 =>
      have h := @zerosAtEnd_append 3 (by decide) (l ++ [b, 0, 0]) 1
      rw [List.append_assoc] at h
      exact h
    | k + 2 =>
      have h := ih k (by omega) (show (3 : UInt8) ≠ 0 by decide) (l ++ [b, 0, 0])
      rw [List.append_assoc] at h
      rw [Nat.add_mod_right]
      exact h

theorem zerosAtEnd_add (hb : b ≠ 0) (front : List UInt8) (k : Nat) :
    zerosAtEnd (addEmulationPrevention (front ++ b :: List.replicate k 0)) = zerosLeft k := by
  obtain ⟨escaped, h⟩ := addLoop_append hb (List.replicate k 0) front 0
  rw [addEmulationPrevention, h]
  match k with
  | 0 => exact zerosAtEnd_append hb escaped 0
  | 1 => exact zerosAtEnd_append hb escaped 1
  | k + 2 =>
    rw [zerosLeft, if_neg (by omega), Nat.add_mod_right]
    exact zerosAtEnd_pairs hb escaped k

/-! ## Blocks -/

/-- The blocks of `plainBlocks`, encrypted. -/
def secretBlocks (cipher : Octets 16 → Octets 16) (prev : Octets 16) (data : List UInt8) :
    List UInt8 :=
  if 16 < data.length then
    let ct := cipher (xorOctets (.ofSlice 16 data) prev)
    ct.bytes ++ (data.drop 16).take h264Skip ++
      secretBlocks cipher ct (data.drop (16 + h264Skip))
  else data
termination_by data.length
decreasing_by
  rw [List.length_drop]
  omega

theorem secretBlocks_eq_walk (cipher : Octets 16 → Octets 16) (prev : Octets 16)
    (data : List UInt8) :
    secretBlocks cipher prev data =
      walk (samplePattern h264Skip false) (cbcEncrypt cipher) prev data := by
  induction h : data.length using Nat.strongRecOn generalizing data prev with
  | ind n ih =>
    subst h
    have hcovers := samplePattern_least h264Skip false data.length
    by_cases hlong : 16 < data.length
    · have hless : (data.drop (16 + h264Skip)).length < data.length :=
        length_drop_lt (samplePattern h264Skip false) (hcovers.mpr hlong)
      rw [secretBlocks, if_pos hlong, walk_long _ (hcovers.mpr hlong)]
      dsimp only
      rw [ih _ hless _ _ rfl]
      exact List.append_assoc _ _ _
    · rw [secretBlocks, if_neg hlong, walk_short _ (mt hcovers.mp hlong)]

/-- **The inverse cipher restores the blocks.** -/
theorem secretBlocks_plainBlocks (c : BlockPair) (prev : Octets 16) (data : List UInt8) :
    secretBlocks c.enc prev (plainBlocks c.dec prev data) = data := by
  rw [secretBlocks_eq_walk, plainBlocks_eq_walk]
  exact walk_walk (cbcEncrypt_decrypt c) prev data

/-- The bytes behind the last block, which are clear. -/
def behindBlocks (data : List UInt8) : List UInt8 :=
  data.drop ((data.length - 17) / 160 * 160 + 16)

variable {data : List UInt8}

theorem behindBlocks_last (h : ¬16 < (data.drop 160).length) :
    behindBlocks data = data.drop 16 := by
  rw [List.length_drop] at h
  rw [behindBlocks, Nat.div_eq_of_lt (by omega), Nat.zero_mul, Nat.zero_add]

theorem behindBlocks_next (h : 16 < (data.drop 160).length) :
    behindBlocks data = behindBlocks (data.drop 160) := by
  rw [List.length_drop] at h
  rw [behindBlocks, behindBlocks, List.drop_drop, List.length_drop]
  refine congrArg (fun n => data.drop n) ?_
  omega

/-- **The last block, and the clear bytes behind it.** -/
theorem plainBlocks_last (prev : Octets 16) (h : 16 < data.length) :
    ∃ ct last, ∀ cipher, ∃ front,
      plainBlocks cipher prev data =
        front ++ (xorOctets (cipher ct) last).bytes ++ behindBlocks data := by
  induction hn : data.length using Nat.strongRecOn generalizing data prev with
  | ind n ih =>
    subst hn
    by_cases hmore : 16 < (data.drop 160).length
    · obtain ⟨ct, last, hlast⟩ := ih _ (by rw [List.length_drop]; omega)
        (.ofSlice 16 data) hmore rfl
      refine ⟨ct, last, fun cipher => ?_⟩
      obtain ⟨front, hfront⟩ := hlast cipher
      refine ⟨xorBlock (cipher (.ofSlice 16 data)) prev ++ (data.drop 16).take h264Skip ++ front, ?_⟩
      rw [plainBlocks_long h, behindBlocks_next hmore]
      show _ ++ plainBlocks cipher _ (data.drop 160) = _
      rw [hfront]
      simp only [List.append_assoc]
    · refine ⟨.ofSlice 16 data, prev, fun cipher => ⟨[], ?_⟩⟩
      rw [plainBlocks_long h]
      show _ ++ plainBlocks cipher _ (data.drop 160) = _
      have hdrop : data.drop 160 = (data.drop 16).drop h264Skip := by
        rw [List.drop_drop]
        rfl
      rw [plainBlocks_short hmore, behindBlocks_last hmore, List.nil_append, List.append_assoc,
        hdrop, List.take_append_drop]
      rfl

theorem length_behindBlocks (h : 16 < data.length) : 0 < (behindBlocks data).length := by
  rw [behindBlocks, List.length_drop]
  omega

/-! ## Units -/

/-- The condition on a unit that is decrypted, with the zeros behind it: it is escaped, and the
clear bytes behind its last block are not all zeros. -/
structure Aligned (slice : List UInt8) : Prop where
  escaped : Escaped slice
  clear : ∃ b ∈ behindBlocks ((removeEmulationPrevention slice).drop 32), b ≠ 0

section
variable {slice : List UInt8}

theorem head_remove : (removeEmulationPrevention slice).head? = slice.head? := by
  cases slice with
  | nil => rfl
  | cons b slice =>
    rw [removeEmulationPrevention, removeLoop, if_neg (by simp)]
    rfl

theorem head_add : (addEmulationPrevention slice).head? = slice.head? := by
  cases slice with
  | nil => rfl
  | cons b slice =>
    rw [addEmulationPrevention, addLoop, if_neg (by simp)]
    rfl

theorem length_le_addLoop (nal : List UInt8) (zeros : Nat) :
    nal.length ≤ (addLoop zeros nal).length := by
  induction nal generalizing zeros with
  | nil => exact Nat.le_refl 0
  | cons b nal ih =>
    rw [addLoop]
    split
    · exact Nat.le_succ_of_le (Nat.succ_le_succ (ih _))
    · exact Nat.succ_le_succ (ih _)

/-- The bytes of a unit that is decrypted, without emulation prevention. -/
theorem Treated.clean (h : Treated slice) {clean : List UInt8}
    (hclean : removeEmulationPrevention slice = clean) :
    48 < clean.length ∧ clean.take 32 ++ clean.drop 32 = clean ∧ 16 < (clean.drop 32).length := by
  have hlen : 48 < clean.length := hclean ▸ h.2.2
  refine ⟨hlen, List.take_append_drop 32 clean, ?_⟩
  rw [List.length_drop]
  omega

/-- What is decrypted is decrypted to a unit that would be, and would be encrypted. -/
theorem Treated.plain (h : Treated slice) {blocks : List UInt8 → List UInt8}
    (hblocks : ∀ data, (blocks data).length = data.length) :
    Treated (mapBlocks blocks slice) ∧
      removeEmulationPrevention (mapBlocks blocks slice) =
        (removeEmulationPrevention slice).take 32 ++
          blocks ((removeEmulationPrevention slice).drop 32) := by
  rw [mapBlocks, if_pos h]
  obtain ⟨hlen, -, -⟩ := h.clean rfl
  have hhead := @head_remove slice
  generalize removeEmulationPrevention slice = clean at hlen hhead ⊢
  dsimp only
  rw [remove_add]
  have hlength : (clean.take 32 ++ blocks (clean.drop 32)).length = clean.length := by
    rw [List.length_append, hblocks, List.length_take, List.length_drop]
    omega
  refine ⟨⟨?_, ?_, ?_⟩, rfl⟩
  · obtain ⟨head, hslice, htype⟩ := h.1
    refine ⟨head, ?_, htype⟩
    rw [head_add, ← hslice, ← hhead]
    cases clean with
    | nil => exact absurd hlen (by simp)
    | cons b clean => rfl
  · have hmore := length_le_addLoop (clean.take 32 ++ blocks (clean.drop 32)) 0
    rw [hlength] at hmore
    exact Nat.lt_of_lt_of_le hlen hmore
  · rw [remove_add, hlength]
    exact hlen

/-- **The inverse cipher restores a unit** that is escaped. -/
theorem secret_plain (c : BlockPair) (iv : Octets 16) (h : Treated slice → Escaped slice) :
    mapBlocks (secretBlocks c.enc iv) (plainNal ⟨c.dec, iv⟩ slice) = slice := by
  rw [plainNal]
  by_cases ht : Treated slice
  · obtain ⟨htreated, hremove⟩ := ht.plain (length_plainBlocks c.dec iv)
    obtain ⟨hlen, hjoin, -⟩ := ht.clean rfl
    rw [mapBlocks, if_pos htreated, hremove]
    have htake : ((removeEmulationPrevention slice).take 32).length = 32 :=
      List.length_take_of_le (by omega)
    dsimp only
    rw [List.take_left' htake, List.drop_left' htake, secretBlocks_plainBlocks, hjoin]
    exact add_remove_iff.mpr (h ht)
  · have hsame : mapBlocks (plainBlocks c.dec iv) slice = slice := if_neg ht
    rw [hsame]
    exact if_neg ht

/-- What is restored after its emulation prevention bytes have been put back was escaped. -/
theorem escaped_of_secret_plain (c : BlockPair) (iv : Octets 16) (ht : Treated slice)
    (h : mapBlocks (secretBlocks c.enc iv) (plainNal ⟨c.dec, iv⟩ slice) = slice) :
    Escaped slice := by
  obtain ⟨htreated, -⟩ := ht.plain (length_plainBlocks c.dec iv)
  rw [plainNal, mapBlocks, if_pos htreated] at h
  exact h ▸ escapedFrom_addLoop _ 0

theorem codeless_mapBlocks (blocks : List UInt8 → List UInt8) (h : Codeless slice) :
    Codeless (mapBlocks blocks slice) := by
  rw [mapBlocks]
  split
  · exact EscapedFrom.codeless (escapedFrom_addLoop _ 0)
  · exact h

theorem zerosAtEnd_add_append (l : List UInt8) {m : List UInt8} (hm : ∃ b ∈ m, b ≠ 0) :
    zerosAtEnd (addEmulationPrevention (l ++ m)) = zerosLeft (zerosAtEnd m) := by
  rcases eq_replicate_or_append m with h | ⟨front, b, k, hb, h⟩
  · obtain ⟨b, hmem, hb⟩ := hm
    rw [h] at hmem
    exact absurd (List.eq_of_mem_replicate hmem) hb
  · rw [h, ← List.append_assoc, zerosAtEnd_add hb, zerosAtEnd_append hb]

/-- What a unit is decrypted to, up to the clear bytes at its end. -/
theorem plainNal_last (iv : Octets 16) (ht : Treated slice) :
    ∃ ct last, ∀ cipher, ∃ front,
      plainNal ⟨cipher, iv⟩ slice = addEmulationPrevention
        (front ++ (xorOctets (cipher ct) last).bytes ++
          behindBlocks ((removeEmulationPrevention slice).drop 32)) := by
  obtain ⟨-, -, hlong⟩ := ht.clean rfl
  obtain ⟨ct, last, hlast⟩ := plainBlocks_last iv hlong
  refine ⟨ct, last, fun cipher => ?_⟩
  obtain ⟨front, hfront⟩ := hlast cipher
  refine ⟨(removeEmulationPrevention slice).take 32 ++ front, ?_⟩
  rw [plainNal, mapBlocks, if_pos ht]
  dsimp only
  rw [hfront]
  simp only [List.append_assoc]

/-- **Decryption leaves the zeros behind a unit** where the clear bytes at its end say how many
there are. -/
theorem zerosAtEnd_plainNal (dec : SampleDecryptor) (h : Treated slice → Aligned slice) :
    zerosAtEnd (plainNal dec slice) = zerosAtEnd slice := by
  by_cases ht : Treated slice
  · obtain ⟨hesc, hclear⟩ := h ht
    obtain ⟨ct, last, hlast⟩ := plainNal_last dec.baseIv ht
    obtain ⟨front, hfront⟩ := hlast dec.cipher
    have hplain : zerosAtEnd (plainNal dec slice) =
        zerosLeft (zerosAtEnd (behindBlocks ((removeEmulationPrevention slice).drop 32))) := by
      rw [← zerosAtEnd_add_append _ hclear]
      exact congrArg zerosAtEnd hfront
    have hslice := add_remove_iff.mpr hesc
    have hends : ∃ front', removeEmulationPrevention slice =
        front' ++ behindBlocks ((removeEmulationPrevention slice).drop 32) := by
      rw [behindBlocks, List.drop_drop]
      exact ⟨_, (List.take_append_drop _ _).symm⟩
    obtain ⟨front', hends⟩ := hends
    rw [hplain, ← zerosAtEnd_add_append front' hclear, ← hends, hslice]
  · rw [plainNal, mapBlocks, if_neg ht]

/-- The cipher that turns the bits of a mask. -/
def BlockPair.mask (m : Octets 16) : BlockPair where
  enc := xorOctets m
  dec := xorOctets m
  enc_dec b := xorOctets_cancel_left m b
  dec_enc b := xorOctets_cancel_left m b

def zeroBlock : Octets 16 := ⟨List.replicate 16 0, rfl⟩

/-- Some cipher decrypts the last block to given bytes. -/
theorem exists_plainNal_last (ht : Treated slice) (v : Octets 16) :
    ∃ (c : BlockPair) (front : List UInt8),
      plainNal ⟨c.dec, zeroBlock⟩ slice = addEmulationPrevention
        (front ++ v.bytes ++ behindBlocks ((removeEmulationPrevention slice).drop 32)) := by
  obtain ⟨ct, last, hlast⟩ := plainNal_last zeroBlock ht
  let c := BlockPair.mask (xorOctets (xorOctets v last) ct)
  obtain ⟨front, hfront⟩ := hlast c.dec
  have hv : xorOctets (c.dec ct) last = v := by
    show xorOctets (xorOctets (xorOctets (xorOctets v last) ct) ct) last = v
    rw [xorOctets_cancel, xorOctets_cancel]
  exact ⟨c, front, by rw [hfront, hv]⟩

/-- A block of ones, but for the zeros at its end. -/
def onesThen (zeros : Nat) (h : zeros ≤ 15) : Octets 16 where
  bytes := List.replicate (15 - zeros) 1 ++ 1 :: List.replicate zeros 0
  length_eq := by
    simp only [List.length_append, List.length_cons, List.length_replicate]
    omega

/-- **Where the clear bytes at the end are all zeros**, some cipher changes how many follow the
unit. -/
theorem aligned_of_zeros (ht : Treated slice) (hesc : Escaped slice)
    (h : ∀ c : BlockPair, zerosAtEnd (plainNal ⟨c.dec, zeroBlock⟩ slice) = zerosAtEnd slice) :
    Aligned slice := by
  refine ⟨hesc, Classical.byContradiction fun hnone => ?_⟩
  obtain ⟨-, -, hlong⟩ := ht.clean rfl
  have hpos := length_behindBlocks hlong
  have hzeros : behindBlocks ((removeEmulationPrevention slice).drop 32) =
      List.replicate (behindBlocks ((removeEmulationPrevention slice).drop 32)).length 0 :=
    List.eq_replicate_of_mem fun b hb => Classical.byContradiction fun hne => hnone ⟨b, hb, hne⟩
  have hcount (j : Nat) (hj : j ≤ 15) : zerosAtEnd slice = zerosLeft
      (j + (behindBlocks ((removeEmulationPrevention slice).drop 32)).length) := by
    obtain ⟨c, front, hplain⟩ := exists_plainNal_last ht (onesThen j hj)
    rw [← h c, hplain, hzeros, List.length_replicate]
    have hbytes (u : Nat) : front ++ (onesThen j hj).bytes ++ List.replicate u 0 =
        (front ++ List.replicate (15 - j) 1) ++ 1 :: List.replicate (j + u) 0 := by
      simp only [onesThen, List.append_assoc, List.cons_append, List.replicate_append_replicate]
    rw [hbytes]
    exact zerosAtEnd_add (by decide) _ _
  have hboth := (hcount 0 (by decide)).symm.trans (hcount 1 (by decide))
  generalize (behindBlocks ((removeEmulationPrevention slice).drop 32)).length = u at hpos hboth
  unfold zerosLeft at hboth
  rw [if_neg (by omega), if_neg (by omega)] at hboth
  omega

end

/-! ## The payload -/

/-- A unit of a type and a length that is encrypted. -/
def Protected (unit : List UInt8) : Prop :=
  (∃ head, unit.head? = some head ∧ (head.toNat % 32 = 1 ∨ head.toNat % 32 = 5)) ∧
    h264MinEncryptedNal < unit.length

/-- A piece before and after: all of it is the same but a protected unit. -/
structure SameAround (p q : Piece) : Prop where
  code : q.long = p.long
  zeros : q.zeros = p.zeros
  unit : q.unit = p.unit ∨ Protected p.unit

/-- **The clear bytes of a payload are kept**: those in front of the first start code, the codes,
the zeros between units, and the units that are not protected, in their order. -/
structure ClearKept (payload out : List UInt8) : Prop where
  front : (cut out).1 = (cut payload).1
  pieces : List.Forall₂ SameAround (cut payload).2 (cut out).2

/-- The payload, encrypted again. -/
def encryptH264Payload (c : BlockPair) (iv : Octets 16) (payload : List UInt8) : List UInt8 :=
  join (cut payload).1 (mapSlices (mapBlocks (secretBlocks c.enc iv)) (cut payload).2)

/-- Under every cipher, decryption leaves the clear bytes alone, and the inverse cipher restores
the payload. -/
def LeavesClear (payload : List UInt8) : Prop :=
  ∀ (c : BlockPair) (iv : Octets 16), ∃ out,
    decryptH264Payload { cipher := c.dec, baseIv := iv } payload = .ok out ∧
      ClearKept payload out ∧ encryptH264Payload c iv out = payload

/-- What it takes: where there is a start code, nothing is in front of the first one, and each
unit that is decrypted is aligned. -/
structure InOrder (payload : List UInt8) : Prop where
  front : (cut payload).2 ≠ [] → (cut payload).1 = []
  aligned : ∀ p ∈ (cut payload).2, Treated p.slice → Aligned p.slice

/-- Changed slices fit as the old ones did. -/
theorem fitting_mapSlices {f : List UInt8 → List UInt8} {t t' : List UInt8} (h : Fitting t ps)
    (ht' : Codeless t') (hlast : t'.getLast? = some 0 → t.getLast? = some 0)
    (hf : ∀ p ∈ ps, Codeless (f p.slice) ∧ zerosAtEnd (f p.slice) = zerosAtEnd p.slice) :
    Fitting t' (mapSlices f ps) := by
  induction ps generalizing t t' with
  | nil => exact ht'
  | cons p ps ih =>
    obtain ⟨⟨hcodeless, hzeros⟩, hps⟩ := List.forall_mem_cons.mp hf
    refine ⟨ht', fun hshort hzero => h.2.1 hshort (hlast hzero), ?_⟩
    refine ih h.2.2 hcodeless (fun hzero => ?_) hps
    rw [getLast?_eq_zero_iff, hzeros] at hzero
    exact getLast?_eq_zero_iff.mpr hzero

theorem longs_mapSlices (f : List UInt8 → List UInt8) (ps : List Piece) :
    (mapSlices f ps).map Piece.long = ps.map Piece.long := by
  rw [mapSlices, List.map_map]
  rfl

/-- A unit that is decrypted and aligned is one that is encrypted. -/
theorem Aligned.protected {p : Piece} (h : Aligned p.slice) (ht : Treated p.slice) :
    Protected p.unit := by
  obtain ⟨hesc, hclear⟩ := h
  obtain ⟨hlen, -, -⟩ := ht.clean rfl
  obtain ⟨head, hhead, htype⟩ := ht.1
  have hslice := add_remove_iff.mpr hesc
  have hlonger := length_le_addLoop (removeEmulationPrevention p.slice) 0
  rw [← addEmulationPrevention, hslice] at hlonger
  have hends : ∃ front, removeEmulationPrevention p.slice =
      front ++ behindBlocks ((removeEmulationPrevention p.slice).drop 32) ∧ 48 ≤ front.length := by
    refine ⟨(removeEmulationPrevention p.slice).take
      (32 + ((((removeEmulationPrevention p.slice).drop 32).length - 17) / 160 * 160 + 16)), ?_, ?_⟩
    · rw [behindBlocks, List.drop_drop, List.take_append_drop]
    · rw [List.length_take, List.length_drop]
      omega
  obtain ⟨front, hends, hfront⟩ := hends
  have hzeros : p.zeros =
      zerosLeft (zerosAtEnd (behindBlocks ((removeEmulationPrevention p.slice).drop 32))) := by
    rw [← zerosAtEnd_add_append front hclear, ← hends, hslice]
    rfl
  have hless := zerosAtEnd_lt hclear
  have htotal := congrArg List.length hends
  rw [List.length_append] at htotal
  have hleft (k : Nat) : zerosLeft k ≤ k := by
    unfold zerosLeft
    split <;> omega
  have hle := hleft (zerosAtEnd (behindBlocks ((removeEmulationPrevention p.slice).drop 32)))
  have hunit : h264MinEncryptedNal < p.unit.length := by
    rw [Piece.unit, List.length_take, h264MinEncryptedNal]
    omega
  refine ⟨⟨head, ?_, htype⟩, hunit⟩
  rw [Piece.unit] at hunit ⊢
  rw [List.head?_take, if_neg fun hzero => ?_, hhead]
  rw [hzero, List.take_zero] at hunit
  exact absurd hunit (Nat.not_lt_zero _)

theorem sameAround_plain (dec : SampleDecryptor) {p : Piece}
    (h : Treated p.slice → Aligned p.slice) :
    SameAround p { p with slice := plainNal dec p.slice } where
  code := rfl
  zeros := zerosAtEnd_plainNal dec h
  unit := by
    by_cases ht : Treated p.slice
    · exact .inr ((h ht).protected ht)
    · refine .inl ?_
      rw [plainNal, mapBlocks, if_neg ht]

variable {payload : List UInt8}

/-- The pieces of a payload that is cut where it begins. -/
theorem decrypt_pieces (c : BlockPair) (iv : Octets 16) (h : (cut payload).2 ≠ []) :
    decryptH264Payload { cipher := c.dec, baseIv := iv } payload =
      .ok (join [] (mapSlices (plainNal ⟨c.dec, iv⟩) (cut payload).2)) := by
  rw [decryptH264Payload_eq, if_neg h]

/-- Where every unit that is decrypted is aligned, the pieces of the result are found. -/
theorem InOrder.cut_plain (h : InOrder payload) (hps : (cut payload).2 ≠ [])
    (dec : SampleDecryptor) :
    cut (join [] (mapSlices (plainNal dec) (cut payload).2)) =
      ([], mapSlices (plainNal dec) (cut payload).2) := by
  have hfit := (fitting_cut payload).1
  rw [h.front hps] at hfit
  exact cut_join (fitting_mapSlices hfit codeless_nil id fun p hp =>
    ⟨codeless_mapBlocks _ (hfit.codeless_slices p hp), zerosAtEnd_plainNal dec (h.aligned p hp)⟩)

theorem InOrder.leavesClear (h : InOrder payload) : LeavesClear payload := by
  intro c iv
  by_cases hps : (cut payload).2 = []
  · refine ⟨payload, by rw [decryptH264Payload_eq, if_pos hps], ⟨rfl, ?_⟩, ?_⟩
    · rw [hps]
      exact .nil
    · have hjoin := (fitting_cut payload).2
      rw [hps] at hjoin
      rw [encryptH264Payload, hps]
      exact hjoin
  have hcut := h.cut_plain hps ⟨c.dec, iv⟩
  refine ⟨_, decrypt_pieces c iv hps, ⟨?_, ?_⟩, ?_⟩
  · rw [hcut, h.front hps]
  · rw [hcut, mapSlices]
    exact List.forall₂_map_right_iff.mpr
      (List.forall₂_same.mpr fun p hp => sameAround_plain _ (h.aligned p hp))
  · have hrestored : mapSlices (mapBlocks (secretBlocks c.enc iv))
        (mapSlices (plainNal ⟨c.dec, iv⟩) (cut payload).2) = (cut payload).2 := by
      rw [mapSlices, mapSlices, List.map_map]
      refine (List.map_congr_left fun p hp => ?_).trans (List.map_id _)
      show { p with slice := mapBlocks (secretBlocks c.enc iv) (plainNal ⟨c.dec, iv⟩ p.slice) } = p
      rw [secret_plain c iv fun ht => (h.aligned p hp ht).escaped]
    have hjoin := (fitting_cut payload).2
    rw [h.front hps] at hjoin
    rw [encryptH264Payload, hcut, hrestored, hjoin]

/-! ### Nothing less will do -/

theorem longs_of_sameAround {qs : List Piece} (h : List.Forall₂ SameAround ps qs) :
    qs.map Piece.long = ps.map Piece.long := by
  induction h with
  | nil => rfl
  | cons hpq _ ih => rw [List.map_cons, List.map_cons, hpq.code, ih]

theorem codeless_mapSlices (blocks : List UInt8 → List UInt8) (h : ∀ p ∈ ps, Codeless p.slice) :
    ∀ q ∈ mapSlices (mapBlocks blocks) ps, Codeless q.slice := by
  intro q hq
  obtain ⟨p, hp, rfl⟩ := List.mem_map.mp hq
  exact codeless_mapBlocks blocks (h p hp)

/-- What a payload that comes out as claimed comes out as, under one cipher. -/
theorem LeavesClear.under (h : LeavesClear payload) (hps : (cut payload).2 ≠ []) (c : BlockPair)
    (iv : Octets 16) :
    (cut payload).1 = [] ∧ ∀ p ∈ (cut payload).2,
      zerosAtEnd (plainNal ⟨c.dec, iv⟩ p.slice) = zerosAtEnd p.slice ∧
        mapBlocks (secretBlocks c.enc iv) (plainNal ⟨c.dec, iv⟩ p.slice) = p.slice := by
  obtain ⟨out, hout, hkept, hrestored⟩ := h c iv
  obtain rfl := Except.ok.inj ((decrypt_pieces c iv hps).symm.trans hout)
  have hcodeless := (fitting_cut payload).1.codeless_slices
  have hcut := cut_join_of_longs codeless_nil
    (codeless_mapSlices (plainBlocks c.dec iv) hcodeless)
    ((longs_of_sameAround hkept.pieces).trans (longs_mapSlices _ _).symm)
  have hkept' := hkept.pieces
  rw [plainNal, hcut, mapSlices, List.forall₂_map_right_iff, List.forall₂_same] at hkept'
  have hfront := hkept.front
  rw [plainNal, hcut] at hfront
  rw [encryptH264Payload, plainNal, hcut] at hrestored
  -- The payload is cut into the pieces that it is restored from.
  have hcut' := cut_join_of_longs codeless_nil
    (codeless_mapSlices (secretBlocks c.enc iv)
      (codeless_mapSlices (plainBlocks c.dec iv) hcodeless))
    (by rw [hrestored, longs_mapSlices, longs_mapSlices])
  rw [hrestored] at hcut'
  have hsame := congrArg Prod.snd hcut'
  rw [mapSlices, mapSlices, List.map_map] at hsame
  refine ⟨hfront.symm, fun p hp => ⟨(hkept' p hp).zeros, ?_⟩⟩
  have heach := List.map_inj_left.mp (hsame.symm.trans (List.map_id _).symm) p hp
  exact congrArg Piece.slice heach

/-- **When decryption leaves the clear bytes alone**, and the inverse cipher restores the payload:
exactly where nothing is in front of the first start code, and each unit that is decrypted is
escaped and ends with clear bytes that are not all zeros. -/
theorem leavesClear_iff (payload : List UInt8) : LeavesClear payload ↔ InOrder payload := by
  constructor
  · intro h
    have hsame : BlockPair := BlockPair.mask zeroBlock
    refine ⟨fun hps => (h.under hps hsame zeroBlock).1, fun p hp ht => ?_⟩
    have hps := List.ne_nil_of_mem hp
    have hesc := escaped_of_secret_plain hsame zeroBlock ht
      ((h.under hps hsame zeroBlock).2 p hp).2
    exact aligned_of_zeros ht hesc fun c => ((h.under hps c zeroBlock).2 p hp).1
  · exact InOrder.leavesClear

/-- The last byte of a unit from the packet before, and an access unit delimiter. -/
def continued : List UInt8 := [0xAA, 0, 0, 1, 9, 0xF0]

/-- The byte in front of the first start code is lost. -/
theorem continued_loses_front : ¬LeavesClear continued := by
  intro h
  obtain ⟨out, hout, hkept, -⟩ := h (BlockPair.mask zeroBlock) zeroBlock
  have hlost : decryptH264Payload { cipher := (BlockPair.mask zeroBlock).dec, baseIv := zeroBlock }
      continued = .ok [0, 0, 1, 9, 0xF0] := by decide +kernel
  obtain rfl := Except.ok.inj (hlost.symm.trans hout)
  exact absurd hkept.front (by decide)

end XferRust.Playlist
