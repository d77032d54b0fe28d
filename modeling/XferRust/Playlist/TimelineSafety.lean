import XferRust.Playlist.TimelineWalks

/-! # Which products make the normalisation panic

The first pass panics when it comes to a size that wraps, in one of the boxes that it takes apart.
The second pass takes apart none that the first has not been through, and writes its times where
they were found: it always returns, and changes each box where it stands.
-/
namespace XferRust.Playlist
open Guarded IsoBoxes SortedMap

/-! ## The first pass -/

/-- The passes take the box apart, and a size in it wraps. -/
structure BoxFits (c : List UInt8) : Prop where
  asMoov : boxType c = moov → c.length ≤ maxBoxRead → MoovFits c
  asMoof : boxType c = moof → c.length ≤ maxBoxRead → MoofFits c

variable {c : List UInt8}

theorem boxFits_of_long (h : maxBoxRead < c.length) : BoxFits c :=
  ⟨fun _ hle => absurd h (Nat.not_lt.mpr hle), fun _ hle => absurd h (Nat.not_lt.mpr hle)⟩

variable {after before : List UInt8}

/-- `read_box` of a box that stands in the file. -/
theorem readBox_at :
    readBox (before ++ c ++ after) before.length c.length =
      if maxBoxRead < c.length then none else some c := by
  have hdrop : (before ++ c ++ after).drop before.length = c ++ after := by
    rw [List.append_assoc, List.drop_left]
  rw [readBox, readExact_eq, hdrop, List.length_append, List.take_left,
    if_pos (Nat.le_add_right c.length after.length)]

theorem returns_scanBox (h8 : 8 ≤ c.length) (s : Scan) :
    Returns (scanBox (before ++ c ++ after) (boxAt (c, before.length)) s) ↔ BoxFits c := by
  unfold scanBox
  rw [show (boxAt (c, before.length)).off = before.length from rfl,
    show (boxAt (c, before.length)).size = c.length from rfl,
    show (boxAt (c, before.length)).typ = boxType c from rfl, readBox_at]
  by_cases hlong : maxBoxRead < c.length
  · rw [if_pos hlong]
    refine iff_of_true ?_ (boxFits_of_long hlong)
    split
    · exact returns_ok _
    · split
      · exact returns_ok _
      · exact returns_ok _
  have hle : c.length ≤ maxBoxRead := Nat.not_lt.mp hlong
  rw [if_neg hlong]
  by_cases hmoov : boxType c = moov
  · rw [if_pos hmoov]
    dsimp only
    rw [returns_bind]
    constructor
    · rintro ⟨trackTs, h, -⟩
      exact ⟨fun _ _ => (returns_parseMoovTracks h8 hle _).mp ⟨trackTs, h⟩,
        fun hmoof => absurd (hmoov.symm.trans hmoof) (by decide)⟩
    · intro h
      obtain ⟨trackTs, hts⟩ := (returns_parseMoovTracks h8 hle s.trackTs).mpr (h.asMoov hmoov hle)
      exact ⟨trackTs, hts, returns_ok _⟩
  rw [if_neg hmoov]
  by_cases hmoof : boxType c = moof
  · rw [if_pos hmoof]
    dsimp only
    rw [returns_bind]
    constructor
    · rintro ⟨entries, h, -⟩
      exact ⟨fun hm => absurd hm hmoov, fun _ _ => (returns_tfdtEntries h8 hle).mp ⟨entries, h⟩⟩
    · intro h
      obtain ⟨entries, he⟩ := (returns_tfdtEntries h8 hle).mpr (h.asMoof hmoof hle)
      exact ⟨entries, he, returns_ok _⟩
  · rw [if_neg hmoof]
    exact iff_of_true (returns_ok _) ⟨fun h => absurd h hmoov, fun h => absurd h hmoof⟩

variable {buf file : List UInt8}

/-- Where a box stands in the file. -/
theorem split_at_box {c : List UInt8 × Nat} (h : c ∈ withOffsets 0 (boxes file).1) :
    ∃ before after, before.length = c.2 ∧ file = before ++ c.1 ++ after := by
  have hcs : ∀ (cs : List (List UInt8)) (before after : List UInt8),
      c ∈ withOffsets before.length cs →
        ∃ front back, front.length = c.2 ∧ before ++ cs.flatten ++ after = front ++ c.1 ++ back := by
    intro cs
    induction cs with
    | nil => exact fun _ _ h => (List.not_mem_nil h).elim
    | cons d cs ih =>
      intro before after h
      rcases List.mem_cons.mp h with rfl | h
      · refine ⟨before, cs.flatten ++ after, rfl, ?_⟩
        rw [List.flatten_cons, ← List.append_assoc before, List.append_assoc (before ++ d)]
      · obtain ⟨front, back, hlen, heq⟩ := ih (before ++ d) after (by
          rw [List.length_append]
          exact h)
        refine ⟨front, back, hlen, ?_⟩
        rw [List.flatten_cons, ← List.append_assoc before]
        exact heq
  obtain ⟨front, back, hlen, heq⟩ := hcs (boxes file).1 [] (boxes file).2 h
  exact ⟨front, back, hlen, (join_boxes file).symm.trans heq⟩

/-- **The first pass returns** if no size wraps in any box that it takes apart. -/
theorem returns_scanLoop (hfile : file.length < 18446744073709551616) (s : Scan) :
    Returns (scanLoop file file.length (file.length + 1) 0 s) ↔
      ∀ c ∈ (boxes file).1, BoxFits c := by
  rw [scanLoop_eq (Nat.zero_le _) hfile (by omega), List.drop_zero]
  have hone : ∀ s, ∀ c ∈ withOffsets 0 (boxes file).1,
      (Returns (scanBox file (boxAt c) s) ↔ BoxFits c.1) := by
    intro s c hc
    obtain ⟨before, after, hlen, hfile⟩ := split_at_box hc
    obtain ⟨c, o⟩ := c
    obtain rfl : before.length = o := hlen
    rw [hfile]
    exact returns_scanBox (eight_le_length (mem_withOffsets hc).1) s
  rw [returns_foldlM (R := fun c => BoxFits c.1) hone]
  constructor
  · intro h c hc
    obtain ⟨o, ho⟩ := exists_mem_withOffsets hc 0
    exact h (c, o) ho
  · exact fun h c hc => h c.1 (mem_withOffsets hc).1

/-! ## The second pass -/

theorem timeBytes_length (v1 : Bool) (val : Nat) : (timeBytes v1 val).length = timeWidth v1 := by
  cases v1 with
  | true => exact BigEndian.length_ofNat 8 val
  | false =>
    show ((BigEndian.ofNat 8 val).drop 4).length = 4
    rw [List.length_drop, BigEndian.length_ofNat]

theorem writeBox_length {off : Nat} (h : off + buf.length ≤ file.length) :
    (writeBox file off buf).length = file.length := by
  rw [writeBox, List.length_append, List.length_append, List.length_take, List.length_drop]
  omega

/-- A time, moved where it stands. -/
def moveTime (bases : TrackMap Nat) (buf : List UInt8) (e : TfdtEntry) : List UInt8 :=
  let new := e.val - (lookup e.track bases).getD 0
  if new = e.val then buf else writeBox buf e.off (timeBytes e.v1 new)

variable {bases : TrackMap Nat}

theorem moveTime_length {e : TfdtEntry} (h : e.off + timeWidth e.v1 ≤ buf.length) :
    (moveTime bases buf e).length = buf.length := by
  unfold moveTime
  dsimp only
  split
  · rfl
  · exact writeBox_length (by rw [timeBytes_length]; exact h)

/-- What `patch_moof` comes to. -/
def movedMoof (bases : TrackMap Nat) (buf : List UInt8) : List UInt8 :=
  (walked buf moofStep []).foldl (moveTime bases) buf

theorem patchMoof_eq (h8 : 8 ≤ buf.length) (hbuf : buf.length ≤ maxBoxRead) (hfits : MoofFits buf) :
    patchMoof bases buf = .ok (movedMoof bases buf) ∧
      (movedMoof bases buf).length = buf.length := by
  have hfold : ∀ (es : List TfdtEntry) (now : List UInt8), now.length = buf.length →
      (∀ e ∈ es, e.off + timeWidth e.v1 ≤ buf.length) →
        es.foldlM (fun now e =>
          let k := (lookup e.track bases).getD 0
          let new := e.val - k
          if new = e.val then .ok now else overwrite now e.off (timeBytes e.v1 new)) now =
            (.ok (es.foldl (moveTime bases) now) : Guarded String (List UInt8)) ∧
        (es.foldl (moveTime bases) now).length = buf.length := by
    intro es
    induction es with
    | nil => exact fun now hnow _ => ⟨rfl, hnow⟩
    | cons e es ih =>
      intro now hnow hes
      obtain ⟨he, hes⟩ := List.forall_mem_cons.mp hes
      have hmove : (let k := (lookup e.track bases).getD 0
          let new := e.val - k
          if new = e.val then .ok now else overwrite now e.off (timeBytes e.v1 new)) =
            (.ok (moveTime bases now e) : Guarded String (List UInt8)) := by
        unfold moveTime
        dsimp only
        split
        · rfl
        · refine if_pos ?_
          rw [timeBytes_length, hnow]
          exact he
      rw [List.foldlM_cons, hmove]
      exact ih _ ((moveTime_length (by rw [hnow]; exact he)).trans hnow) hes
  rw [patchMoof, tfdtEntries_eq h8 hbuf hfits]
  exact hfold _ buf rfl (entry_bounds h8)

/-- What `patch_sidx` comes to. -/
def movedSidx (bases : TrackMap Nat) (buf : List UInt8) : List UInt8 :=
  let v1 := decide (buf[8]? = some 1)
  if 24 ≤ buf.length ∧ (v1 → 28 ≤ buf.length) then
    moveTime bases buf {
      track := BigEndian.toNat ((buf.drop 12).take 4)
      off := 20
      v1
      val := BigEndian.toNat ((buf.drop 20).take (timeWidth v1)) }
  else buf

theorem patchSidx_eq (bases : TrackMap Nat) (buf : List UInt8) :
    patchSidx bases buf = .ok (movedSidx bases buf) ∧
      (movedSidx bases buf).length = buf.length := by
  unfold patchSidx movedSidx
  dsimp only
  by_cases h24 : 24 ≤ buf.length
  case neg =>
    rw [if_neg h24, if_neg fun h => h24 h.1]
    exact ⟨rfl, rfl⟩
  have hversion : buf[8]? = some buf[8] := List.getElem?_eq_getElem (by omega)
  rw [if_pos h24, index_ok hversion, hversion]
  simp only [Option.some.injEq]
  show (if ¬decide (buf[8] = 1) = true ∨ 28 ≤ buf.length then _ else _) = _ ∧ _
  by_cases h28 : decide (buf[8] = 1) = true → 28 ≤ buf.length
  case neg =>
    rw [if_neg fun h => h28 fun hv => h.elim (fun hn => absurd hv hn) id, if_neg fun h => h28 h.2]
    exact ⟨rfl, rfl⟩
  have hwidth : 20 + timeWidth (decide (buf[8] = 1)) ≤ buf.length := by
    rw [timeWidth]
    split
    · rename_i hv
      exact h28 hv
    · exact h24
  rw [if_pos (Classical.or_iff_not_imp_left.mpr fun h => h28 (Classical.not_not.mp h)),
    if_pos ⟨h24, h28⟩, sliceFrom_ok (by omega)]
  refine ⟨?_, moveTime_length hwidth⟩
  show (be32 (buf.drop 12) >>= _) = _
  rw [be32_ok (sliceFrom_length (by omega))]
  show (sliceFrom buf 20 >>= _) = _
  rw [sliceFrom_ok (by omega)]
  show (timeAt _ (buf.drop 20) >>= _) = _
  rw [timeAt_ok (sliceFrom_length hwidth)]
  unfold moveTime
  dsimp only
  refine if_congr Iff.rfl rfl ?_ |>.trans (apply_ite Except.ok _ _ _).symm
  exact if_pos (by rw [timeBytes_length]; exact hwidth)

/-- What the second pass makes of a box. -/
def movedBox (bases : TrackMap Nat) (c : List UInt8) : List UInt8 :=
  if maxBoxRead < c.length then c
  else if boxType c = moof then movedMoof bases c
  else if boxType c = sidx then movedSidx bases c
  else c

theorem movedBox_length (bases : TrackMap Nat) (h8 : 8 ≤ c.length) (hfits : BoxFits c) :
    (movedBox bases c).length = c.length := by
  unfold movedBox
  split
  · rfl
  rename_i hlong
  split
  · rename_i hmoof
    have hle := Nat.not_lt.mp hlong
    exact (patchMoof_eq h8 hle (hfits.asMoof hmoof hle)).2
  split
  · exact (patchSidx_eq bases c).2
  · rfl

theorem writeBox_at {d : List UInt8} (h : d.length = c.length) :
    writeBox (before ++ c ++ after) before.length d = before ++ d ++ after := by
  have htake : (before ++ c ++ after).take before.length = before := by
    rw [List.append_assoc, List.take_left]
  have hdrop : (before ++ c ++ after).drop (before.length + d.length) = after := by
    rw [h, ← List.length_append, List.drop_left]
  rw [writeBox, htake, hdrop]

theorem patchBox_eq (h8 : 8 ≤ c.length) (hfits : BoxFits c) :
    patchBox bases (boxAt (c, before.length)) (before ++ c ++ after) =
      .ok (before ++ movedBox bases c ++ after) := by
  have hlen := movedBox_length bases h8 hfits
  unfold patchBox movedBox
  rw [movedBox] at hlen
  rw [show (boxAt (c, before.length)).off = before.length from rfl,
    show (boxAt (c, before.length)).size = c.length from rfl,
    show (boxAt (c, before.length)).typ = boxType c from rfl, readBox_at]
  by_cases hlong : maxBoxRead < c.length
  · rw [if_pos hlong, if_pos hlong]
    split
    · rfl
    · split
      · rfl
      · rfl
  have hle := Nat.not_lt.mp hlong
  rw [if_neg hlong] at hlen ⊢
  rw [if_neg hlong]
  by_cases hmoof : boxType c = moof
  · rw [if_pos hmoof] at hlen
    rw [if_pos hmoof, if_pos hmoof]
    dsimp only
    rw [(patchMoof_eq h8 hle (hfits.asMoof hmoof hle)).1]
    show Except.ok (writeBox _ _ _) = _
    rw [writeBox_at hlen]
  rw [if_neg hmoof] at hlen
  rw [if_neg hmoof, if_neg hmoof]
  by_cases hsidx : boxType c = sidx
  · rw [if_pos hsidx] at hlen
    rw [if_pos hsidx, if_pos hsidx]
    dsimp only
    rw [(patchSidx_eq bases c).1]
    show Except.ok (writeBox _ _ _) = _
    rw [writeBox_at hlen]
  · rw [if_neg hsidx, if_neg hsidx]

/-- **The second pass** moves the times of each box where it stands. -/
theorem patchLoop_eq {rounds : Nat} {rest : List UInt8}
    (hfile : (before ++ rest).length < 18446744073709551616) (hrounds : rest.length < rounds)
    (hfits : ∀ c ∈ (boxes rest).1, BoxFits c) :
    patchLoop bases (before ++ rest).length rounds before.length (before ++ rest) =
      .ok (before ++ ((boxes rest).1.map (movedBox bases)).flatten ++ (boxes rest).2) := by
  induction rounds generalizing before rest with
  | zero => exact absurd hrounds (Nat.not_lt_zero _)
  | succ rounds ih =>
    have hlen : (before ++ rest).length = before.length + rest.length := List.length_append
    have hrest : (before ++ rest).drop before.length = rest := List.drop_left
    rw [patchLoop, nextBox_eq (by omega) hfile, hrest]
    cases hbox : wholeBox rest with
    | none =>
      rw [boxes_none hbox, List.map_nil, List.flatten_nil, List.append_nil]
      rfl
    | some total =>
      obtain ⟨hpos, hle⟩ := wholeBox_eq_some hbox
      have htake : (rest.take total).length = total := List.length_take_of_le hle
      rw [boxes_some hbox] at hfits ⊢
      obtain ⟨hbox, hmore⟩ := List.forall_mem_cons.mp hfits
      have hat : boxAt (rest.take total, before.length) =
          { off := before.length, size := total, typ := boxType rest } := by
        rw [boxAt, boxType_take hpos, htake]
      have hsplit : before ++ rest = before ++ rest.take total ++ rest.drop total := by
        rw [List.append_assoc, List.take_append_drop]
      have hmoved := movedBox_length bases (by omega) hbox
      have hpatch := @patchBox_eq (rest.take total) (rest.drop total) before bases (by omega) hbox
      rw [← hsplit, hat] at hpatch
      have hend : before.length + total =
          (before ++ movedBox bases (rest.take total)).length := by
        rw [List.length_append, hmoved, htake]
      have hsame : (before ++ rest).length =
          (before ++ movedBox bases (rest.take total) ++ rest.drop total).length := by
        rw [@List.length_append _ _ (rest.drop total), ← hend, List.length_drop, hlen]
        omega
      show (patchBox bases { off := before.length, size := total, typ := boxType rest } _ >>= _) = _
      rw [hpatch]
      show (addSize before.length total >>= _) = _
      rw [addSize_ok (by omega)]
      show patchLoop bases (before ++ rest).length rounds (before.length + total) _ = _
      rw [hend, hsame, ih (by rw [← hsame]; exact hfile) (by rw [List.length_drop]; omega) hmore,
        List.map_cons, List.flatten_cons, ← List.append_assoc before]

/-! ## The normalisation -/

/-- A product file: its length is a number of 64 bits. -/
structure Product where
  bytes : List UInt8
  bounded : bytes.length < 18446744073709551616

/-- The product has at least 16 bytes and begins with a box of the kind that is looked for. -/
def LooksLikeFmp4 (file : List UInt8) : Prop :=
  16 ≤ file.length ∧ boxType file ∈ [ftyp, styp, moof, moov, sidx, free]

/-- No size in a box that is taken apart reaches beyond 2^64. -/
def NoSizeWraps (file : List UInt8) : Prop := LooksLikeFmp4 file → ∀ c ∈ (boxes file).1, BoxFits c

section
variable {F : Type} (sec : Seconds F)

theorem returns_normalizeFmp4 {file : List UInt8} (hfile : file.length < 18446744073709551616) :
    Returns (normalizeFmp4 sec file) ↔ ∀ c ∈ (boxes file).1, BoxFits c := by
  have hscan := returns_scanLoop hfile { trackTs := [], firsts := [], moofs := 0 }
  rw [normalizeFmp4, returns_bind, ← hscan]
  constructor
  · rintro ⟨scan, h, -⟩
    exact ⟨scan, h⟩
  · rintro ⟨scan, h⟩
    refine ⟨scan, h, ?_⟩
    have hpatch (bases : TrackMap Nat) := @patchLoop_eq [] bases (file.length + 1) file hfile
      (by omega) (hscan.mp ⟨scan, h⟩)
    split
    · exact returns_ok _
    split
    · exact returns_ok _
    · dsimp only
      split
      · exact returns_ok _
      · exact ⟨_, hpatch _⟩

/-- **The normalisation** of a product returns exactly where no size in a box that it takes apart
reaches beyond 2^64; elsewhere it panics. -/
theorem normalize_returns_iff (product : Product) :
    Returns (normalizeProductTimeline sec product.bytes) ↔ NoSizeWraps product.bytes := by
  obtain ⟨file, hfile⟩ := product
  have hhead : (((file.take 376).drop 4).take 4) = boxType file := by
    rw [boxType, List.drop_take, List.take_take, Nat.min_eq_left (by decide)]
  unfold normalizeProductTimeline NoSizeWraps LooksLikeFmp4
  dsimp only
  rw [hhead, List.length_take]
  by_cases hshort : file.length < 16
  · rw [if_pos hshort]
    exact iff_of_true (returns_ok _) fun h => absurd h.1 (Nat.not_le.mpr hshort)
  rw [if_neg hshort]
  by_cases hkind : boxType file ∈ [ftyp, styp, moof, moov, sidx, free]
  · rw [if_pos ⟨by omega, hkind⟩, returns_normalizeFmp4 sec hfile]
    exact ⟨fun h _ => h, fun h => h ⟨by omega, hkind⟩⟩
  · rw [if_neg fun h => hkind h.2]
    exact iff_of_true (returns_ok _) fun h => absurd h.2 hkind

end

/-- Times in whole seconds. -/
def wholeSeconds : Seconds Nat where
  ofNat := id
  div := Nat.div
  min := Nat.min
  mul := Nat.mul
  roundU64 := id

/-- A `moof` with a child that gives itself a size of 2^64 - 1. -/
def hugeChild : List UInt8 :=
  [(0 : UInt8), 0, 0, 24] ++ moof ++ [0, 0, 0, 1] ++ free ++
    [255, 255, 255, 255, 255, 255, 255, 255]

/-- The size of the child, added to the place where the child begins, wraps. -/
theorem hugeChild_panics :
    normalizeProductTimeline wholeSeconds hugeChild = .error .panic := by
  decide +kernel

end XferRust.Playlist
