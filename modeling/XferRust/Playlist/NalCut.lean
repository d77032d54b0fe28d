import XferRust.Lib.AnnexB
import XferRust.Playlist.SamplePattern

/-! # How an H.264 payload is cut

`start_codes` walks over the payload from the left and finds the pieces of the byte stream, each
code with the zero byte before it.  So the payload is put together again from the codes and what
becomes of each slice behind one, without what is in front of the first code.
-/
namespace XferRust.Playlist
open Guarded AnnexB Interleaved

/-- Where the codes of pieces are, and how long they are. -/
def codesFrom : Nat → List Piece → List (Nat × Nat)
  | _, [] => []
  | o, p :: ps => (o, p.code.length) :: codesFrom (o + p.text.length) ps

theorem codesFrom_cons (o : Nat) (p : Piece) (ps : List Piece) :
    codesFrom o (p :: ps) =
      (o, p.code.length) :: codesFrom (o + p.code.length + p.slice.length) ps := by
  rw [codesFrom, Piece.text, List.length_append, Nat.add_assoc]

theorem index_append {front rest : List UInt8} {i k : Nat} {b : UInt8} (hi : front.length = i)
    (hb : rest[k]? = some b) :
    (index (front ++ rest) (i + k) : Guarded String UInt8) = .ok b := by
  refine index_ok ?_
  rw [List.getElem?_append_right (by omega), hi, Nat.add_sub_cancel_left, hb]

/-- A start code with no zero before it. -/
theorem codeAt_eq {front rest : List UInt8} {i : Nat} (hi : front.length = i)
    (hfront : front.getLast? ≠ some 0) : codeAt (front ++ rest) i = .ok (i, 3) := by
  unfold codeAt
  by_cases hpos : 0 < i
  · rw [if_pos hpos, sub_ok hpos]
    have hlt : i - 1 < front.length := by omega
    have hlast : front.getLast? = some front[i - 1] := by
      rw [List.getLast?_eq_getElem?, hi, List.getElem?_eq_getElem hlt]
    have hbyte : (index (front ++ rest) (i - 1) : Guarded String UInt8) = .ok front[i - 1] := by
      refine index_ok ?_
      rw [List.getElem?_append_left hlt, List.getElem?_eq_getElem hlt]
    show (index (front ++ rest) (i - 1) >>= _) = _
    rw [hbyte]
    exact if_neg fun hzero => hfront (by rw [hlast, hzero])
  · exact if_neg hpos

/-- The walk from one place on: what is found is where the rest is cut. -/
theorem startCodesLoop_eq {rounds i : Nat} {front rest : List UInt8} {out : List (Nat × Nat)}
    (hi : front.length = i) (hrounds : rest.length < rounds)
    (hfront : front.getLast? = some 0 → ¬startCode <+: rest) :
    startCodesLoop (front ++ rest) rounds i out =
      .ok (out ++ codesFrom (i + (cut rest).1.length) (cut rest).2) := by
  induction rounds generalizing i front rest out with
  | zero => exact absurd hrounds (Nat.not_lt_zero _)
  | succ rounds ih =>
    rw [startCodesLoop]
    by_cases hlen : 3 ≤ rest.length
    case neg =>
      have hshort : Codeless rest := fun h => hlen h.length_le
      rw [if_neg (by rw [List.length_append]; omega), cut_codeless hshort]
      exact congrArg Except.ok (List.append_nil out).symm
    obtain ⟨b0, b1, b2, r, rfl⟩ : ∃ b0 b1 b2 r, rest = b0 :: b1 :: b2 :: r := by
      rcases rest with - | ⟨b0, - | ⟨b1, - | ⟨b2, r⟩⟩⟩
      · simp at hlen
      · simp at hlen
      · simp at hlen
      · exact ⟨b0, b1, b2, r, rfl⟩
    obtain ⟨h0, h1, h2⟩ : (index (front ++ b0 :: b1 :: b2 :: r) i : Guarded String UInt8) = .ok b0 ∧
        (index (front ++ b0 :: b1 :: b2 :: r) (i + 1) : Guarded String UInt8) = .ok b1 ∧
        (index (front ++ b0 :: b1 :: b2 :: r) (i + 2) : Guarded String UInt8) = .ok b2 :=
      ⟨@index_append front _ i 0 b0 hi rfl, index_append hi rfl, index_append hi rfl⟩
    have hbound : i + 3 ≤ (front ++ b0 :: b1 :: b2 :: r).length := by
      rw [List.length_append]
      omega
    rw [if_pos hbound, h0, h1, h2]
    -- One byte further, where no code begins.
    have hnext (hcode : ¬startCode <+: b0 :: b1 :: b2 :: r)
        (hlong : ¬(b0 = 0 ∧ startCode <+: b1 :: b2 :: r)) :
        startCodesLoop (front ++ b0 :: b1 :: b2 :: r) rounds (i + 1) out =
          .ok (out ++ codesFrom (i + (cut (b0 :: b1 :: b2 :: r)).1.length)
            (cut (b0 :: b1 :: b2 :: r)).2) := by
      have hstep := @ih (i + 1) (front ++ [b0]) (b1 :: b2 :: r) out
        (by rw [List.length_append, hi]; rfl) (by simp only [List.length_cons] at hrounds ⊢; omega)
        fun hzero hp => hlong ⟨by simpa using hzero, hp⟩
      rw [List.append_assoc] at hstep
      rw [cut_cons hcode hlong, List.length_cons, Nat.add_comm (cut _).1.length 1, ← Nat.add_assoc]
      exact hstep
    -- Behind a code, which ends with a byte that is not zero.
    have hbehind (code rest' : List UInt8) (hcode : code.getLast? = some 1)
        (hsplit : b0 :: b1 :: b2 :: r = code ++ rest') (found : Nat × Nat) :
        startCodesLoop (front ++ b0 :: b1 :: b2 :: r) rounds (i + code.length) (out ++ [found]) =
          .ok (out ++ found :: codesFrom (i + code.length + (cut rest').1.length)
            (cut rest').2) := by
      have hpos : 0 < code.length := by
        cases code with
        | nil => cases hcode
        | cons => exact Nat.succ_pos _
      have hlast : (front ++ code).getLast? = some 1 := by
        rw [List.getLast?_append, hcode]
        rfl
      have hstep := @ih (i + code.length) (front ++ code) rest' (out ++ [found])
        (by rw [List.length_append, hi])
        (by rw [hsplit, List.length_append] at hrounds; omega)
        fun hzero => absurd (hlast.symm.trans hzero) (by decide)
      rw [List.append_assoc, List.append_assoc] at hstep
      rw [hsplit]
      exact hstep
    by_cases hzeros : b0 = 0 ∧ b1 = 0
    case neg =>
      refine (if_neg hzeros).trans (hnext (fun h => ?_) fun h => ?_)
      · simp only [startCode_prefix_iff, List.cons.injEq] at h
        obtain ⟨-, h0, h1, -⟩ := h
        exact hzeros ⟨h0, h1⟩
      · simp only [startCode_prefix_iff, List.cons.injEq] at h
        obtain ⟨h0, -, h1, -⟩ := h
        exact hzeros ⟨h0, h1⟩
    refine (if_pos hzeros).trans ?_
    obtain ⟨rfl, rfl⟩ := hzeros
    by_cases hb2 : b2 = 1
    · refine (if_pos hb2).trans ?_
      subst hb2
      rw [codeAt_eq hi fun hzero => hfront hzero ⟨r, rfl⟩, cut_code, codesFrom_cons]
      exact hbehind [0, 0, 1] r rfl rfl (i, 3)
    refine (if_neg hb2).trans ?_
    have hcode : ¬startCode <+: 0 :: 0 :: b2 :: r := by simp [hb2]
    by_cases hfour : i + 4 ≤ (front ++ 0 :: 0 :: b2 :: r).length ∧ b2 = 0
    case neg =>
      refine (if_neg hfour).trans (hnext hcode fun h => hfour ?_)
      obtain ⟨r', hr⟩ := startCode_prefix_iff.mp h.2
      obtain ⟨-, rfl, rfl⟩ : (0 : UInt8) = 0 ∧ b2 = 0 ∧ r = 1 :: r' := by simpa using hr
      refine ⟨?_, rfl⟩
      simp only [List.length_append, List.length_cons]
      omega
    refine (if_pos hfour).trans ?_
    obtain ⟨hfit, rfl⟩ := hfour
    obtain ⟨b3, r', rfl⟩ : ∃ b3 r', r = b3 :: r' := by
      cases r with
      | nil =>
        simp only [List.length_append, List.length_cons, List.length_nil] at hfit
        omega
      | cons b3 r' => exact ⟨b3, r', rfl⟩
    have h3 : (index (front ++ 0 :: 0 :: 0 :: b3 :: r') (i + 3) : Guarded String UInt8) = .ok b3 :=
      index_append hi rfl
    rw [h3]
    by_cases hb3 : b3 = 1
    · refine (if_pos hb3).trans ?_
      subst hb3
      rw [cut_longCode, codesFrom_cons]
      exact hbehind [0, 0, 0, 1] r' rfl rfl (i, 4)
    · exact (if_neg hb3).trans (hnext hcode fun h => hb3 (by simpa using h))

/-- **The start codes are those that the payload is cut at.** -/
theorem startCodes_eq (payload : List UInt8) :
    startCodes payload = .ok (codesFrom (cut payload).1.length (cut payload).2) := by
  have h := @startCodesLoop_eq (payload.length + 1) 0 [] payload [] rfl (Nat.lt_succ_self _)
    fun h => (Option.some_ne_none _ h.symm).elim
  rw [Nat.zero_add] at h
  exact h

/-! ## Protected blocks -/

/-- The blocks behind the clear bytes at the head, each with the clear bytes behind it: the last 16
bytes or fewer are clear. -/
def plainBlocks (cipher : Octets 16 → Octets 16) (prev : Octets 16) (data : List UInt8) :
    List UInt8 :=
  if 16 < data.length then
    let ct := Octets.ofSlice 16 data
    xorBlock (cipher ct) prev ++ (data.drop 16).take h264Skip ++
      plainBlocks cipher ct (data.drop (16 + h264Skip))
  else data
termination_by data.length
decreasing_by
  rw [List.length_drop]
  omega

theorem plainBlocks_short {cipher : Octets 16 → Octets 16} {prev : Octets 16} {data : List UInt8}
    (h : ¬16 < data.length) : plainBlocks cipher prev data = data := by
  rw [plainBlocks, if_neg h]

theorem plainBlocks_long {cipher : Octets 16 → Octets 16} {prev : Octets 16} {data : List UInt8}
    (h : 16 < data.length) :
    plainBlocks cipher prev data =
      xorBlock (cipher (.ofSlice 16 data)) prev ++ (data.drop 16).take h264Skip ++
        plainBlocks cipher (.ofSlice 16 data) (data.drop (16 + h264Skip)) := by
  rw [plainBlocks, if_pos h]

/-- The blocks are those of a walk. -/
theorem plainBlocks_eq_walk (cipher : Octets 16 → Octets 16) (prev : Octets 16)
    (data : List UInt8) :
    plainBlocks cipher prev data =
      walk (samplePattern h264Skip false) (cbcDecrypt cipher) prev data := by
  induction h : data.length using Nat.strongRecOn generalizing data prev with
  | ind n ih =>
    subst h
    have hcovers := samplePattern_least h264Skip false data.length
    by_cases hlong : 16 < data.length
    · have hless : (data.drop (16 + h264Skip)).length < data.length :=
        length_drop_lt (samplePattern h264Skip false) (hcovers.mpr hlong)
      rw [plainBlocks_long hlong, walk_long _ (hcovers.mpr hlong), ih _ hless _ _ rfl]
      exact List.append_assoc _ _ _
    · rw [plainBlocks_short hlong, walk_short _ (mt hcovers.mp hlong)]

/-! ## Units -/

/-- What `decrypt_one_nal` looks at before it decrypts: the type, and both lengths. -/
def Treated (nal : List UInt8) : Prop :=
  (∃ head, nal.head? = some head ∧ (head.toNat % 32 = 1 ∨ head.toNat % 32 = 5)) ∧
    h264MinEncryptedNal < nal.length ∧ h264MinEncryptedNal < (removeEmulationPrevention nal).length

instance decidableTreated : (nal : List UInt8) → Decidable (Treated nal)
  | [] => isFalse fun h => h.1.elim fun _ hhead => Option.some_ne_none _ hhead.1.symm
  | b :: nal => decidable_of_iff ((b.toNat % 32 = 1 ∨ b.toNat % 32 = 5) ∧
      h264MinEncryptedNal < (b :: nal).length ∧
      h264MinEncryptedNal < (removeEmulationPrevention (b :: nal)).length) (by simp [Treated])

/-- A unit with its blocks changed, behind 32 clear bytes and without emulation prevention. -/
def mapBlocks (blocks : List UInt8 → List UInt8) (nal : List UInt8) : List UInt8 :=
  if Treated nal then
    let clean := removeEmulationPrevention nal
    addEmulationPrevention (clean.take 32 ++ blocks (clean.drop 32))
  else nal

/-- What `decrypt_one_nal` returns. -/
def plainNal (dec : SampleDecryptor) : List UInt8 → List UInt8 :=
  mapBlocks (plainBlocks dec.cipher dec.baseIv)

theorem length_plainBlocks (cipher : Octets 16 → Octets 16) (prev : Octets 16)
    (data : List UInt8) : (plainBlocks cipher prev data).length = data.length := by
  rw [plainBlocks_eq_walk, length_walk]

theorem decryptOneNal_eq (dec : SampleDecryptor) {nal : List UInt8} (h : nal ≠ []) :
    decryptOneNal dec nal = .ok (plainNal dec nal) := by
  obtain ⟨head, tail, rfl⟩ := List.exists_cons_of_ne_nil h
  unfold decryptOneNal
  rw [@index_ok _ _ (head :: tail) 0 head rfl]
  show (if _ then _ else _) = _
  by_cases htype : head.toNat % 32 ≠ 1 ∧ head.toNat % 32 ≠ 5 ∨
      (head :: tail).length ≤ h264MinEncryptedNal
  · rw [if_pos htype, plainNal, mapBlocks, if_neg]
    rintro ⟨⟨b, hb, hbtype⟩, hlen, -⟩
    obtain rfl := Option.some.inj hb
    omega
  rw [if_neg htype]
  by_cases hclean : (removeEmulationPrevention (head :: tail)).length ≤ h264MinEncryptedNal
  · exact (if_pos hclean).trans (congrArg Except.ok
      (if_neg fun ht => Nat.not_lt.mpr hclean ht.2.2).symm)
  refine (if_neg hclean).trans ?_
  have htreated : Treated (head :: tail) :=
    ⟨⟨head, rfl, by omega⟩, by omega, by omega⟩
  rw [plainNal, mapBlocks, if_pos htreated]
  have hlong : 32 ≤ (removeEmulationPrevention (head :: tail)).length := by
    rw [h264MinEncryptedNal] at hclean
    omega
  rw [sliceFrom_ok hlong]
  generalize removeEmulationPrevention (head :: tail) = clean at hlong ⊢
  have hblocks : dec.decryptBlock (clean.drop 32) h264Skip false =
      .ok (plainBlocks dec.cipher dec.baseIv (clean.drop 32)) := by
    rw [plainBlocks_eq_walk]
    exact decryptBlock_eq_walk dec (clean.drop 32) h264Skip false
  show (dec.decryptBlock (clean.drop 32) h264Skip false >>= _) = _
  rw [hblocks]
  have hfit : 32 + (plainBlocks dec.cipher dec.baseIv (clean.drop 32)).length = clean.length := by
    rw [length_plainBlocks, List.length_drop]
    omega
  have hwrite : (overwrite clean 32 (plainBlocks dec.cipher dec.baseIv (clean.drop 32)) :
      Guarded String (List UInt8)) =
        .ok (clean.take 32 ++ plainBlocks dec.cipher dec.baseIv (clean.drop 32)) := by
    rw [overwrite, if_pos (Nat.le_of_eq hfit), hfit, List.drop_length, List.append_nil]
  show (overwrite clean 32 _ >>= _) = _
  rw [hwrite]
  rfl

theorem plainNal_nil (dec : SampleDecryptor) : plainNal dec [] = [] := by
  rw [plainNal, mapBlocks, if_neg]
  rintro ⟨⟨b, hb, -⟩, -⟩
  cases hb

/-! ## The payload -/

/-- The pieces with their slices changed. -/
def mapSlices (f : List UInt8 → List UInt8) (ps : List Piece) : List Piece :=
  ps.map fun p => { p with slice := f p.slice }

/-- A part of a row of bytes is the slice from its beginning to its end. -/
theorem slice_part {before part rest : List UInt8} {a b : Nat} (ha : before.length = a)
    (hb : a + part.length = b) :
    (slice (before ++ (part ++ rest)) a b : Guarded String (List UInt8)) = .ok part := by
  rw [slice_ok (by omega) (by simp only [List.length_append]; omega), List.drop_left' ha,
    List.take_left' (by omega)]

theorem join_mapSlices_cons (f : List UInt8 → List UInt8) (p : Piece) (ps : List Piece) :
    join [] (mapSlices f (p :: ps)) = p.code ++ (f p.slice ++ join [] (mapSlices f ps)) := by
  rw [mapSlices, List.map_cons, join_cons]
  rfl

theorem nalLoop_eq (dec : SampleDecryptor) {before : List UInt8} {o : Nat} {ps : List Piece}
    (ho : before.length = o) :
    nalLoop dec (before ++ ps.flatMap Piece.text) (codesFrom o ps) =
      .ok (join [] (mapSlices (plainNal dec) ps)) := by
  induction ps generalizing before o with
  | nil => rfl
  | cons p ps ih =>
    have hrest := @ih (before ++ p.text) (o + p.text.length) (by rw [List.length_append, ho])
    rw [List.append_assoc, ← List.flatMap_cons] at hrest
    have hend : ((codesFrom (o + p.text.length) ps).head?.map Prod.fst).getD
        (before ++ (p :: ps).flatMap Piece.text).length = o + p.code.length + p.slice.length := by
      cases ps with
      | nil =>
        simp only [codesFrom, List.head?_nil, Option.map_none, Option.getD_none, List.flatMap_cons,
          List.flatMap_nil, List.append_nil, List.length_append, Piece.text, ho]
        omega
      | cons q ps =>
        simp only [codesFrom, List.head?_cons, Option.map_some, Option.getD_some, Piece.text,
          List.length_append]
        omega
    have hcode : (slice (before ++ (p :: ps).flatMap Piece.text) o (o + p.code.length) :
        Guarded String (List UInt8)) = .ok p.code := by
      rw [List.flatMap_cons, Piece.text, List.append_assoc]
      exact slice_part ho rfl
    rw [codesFrom, nalLoop, hcode, hend, join_mapSlices_cons]
    by_cases hempty : p.slice = []
    · have hnone : o + p.code.length + p.slice.length = o + p.code.length := by
        rw [hempty, List.length_nil, Nat.add_zero]
      refine (if_pos (Nat.le_of_eq hnone)).trans ?_
      rw [hrest, hempty, plainNal_nil, List.nil_append]
      rfl
    · have hpos := List.length_pos_iff.mpr hempty
      refine (if_neg (show ¬o + p.code.length + p.slice.length ≤ o + p.code.length by
        omega)).trans ?_
      have hslice : (slice (before ++ (p :: ps).flatMap Piece.text) (o + p.code.length)
          (o + p.code.length + p.slice.length) : Guarded String (List UInt8)) = .ok p.slice := by
        rw [List.flatMap_cons, Piece.text, List.append_assoc, ← List.append_assoc before]
        exact slice_part (by rw [List.length_append, ho]) rfl
      rw [hslice]
      show (decryptOneNal dec p.slice >>= _) = _
      rw [decryptOneNal_eq dec hempty]
      show (nalLoop dec _ _ >>= _) = _
      rw [hrest]
      exact congrArg Except.ok (List.append_assoc _ _ _)

/-- **What `decrypt_h264_payload` returns**: where there is a start code, the pieces alone. -/
theorem decryptH264Payload_eq (dec : SampleDecryptor) (payload : List UInt8) :
    decryptH264Payload dec payload =
      .ok (if (cut payload).2 = [] then payload
        else join [] (mapSlices (plainNal dec) (cut payload).2)) := by
  have hjoin := (fitting_cut payload).2
  unfold decryptH264Payload
  rw [startCodes_eq]
  cases hps : (cut payload).2 with
  | nil => rfl
  | cons p ps =>
    show nalLoop dec payload (codesFrom (cut payload).1.length (p :: ps)) = _
    have hloop := @nalLoop_eq dec (cut payload).1 _ (p :: ps) rfl
    rw [hps] at hjoin
    rw [← join, hjoin] at hloop
    exact hloop.trans (congrArg Except.ok (if_neg (List.cons_ne_nil p ps)).symm)

end XferRust.Playlist
