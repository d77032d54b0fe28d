import XferRust.Storage.Segments

/-! # Skipped files

A file that is not wanted has no handle: what a piece has of it is neither written nor read.
Here it is said where a byte lies, when it lies anywhere; what writing a piece leaves in the
files, also when a write fails and when two handles lead to one file; and which bytes a block
comes to.
-/
namespace XferRust.Storage
open Tiling (total)
open ByteFile
open PieceLayout (Placed segmentsFrom)

variable {F : Type}

/-- The file and the position of byte number `g`, when its file is open. -/
def locate (handles : List (Option F)) : Nat → List FileLayout → Nat → Option (F × Nat)
  | _, [], _ => none
  | fi, f :: files, g =>
    if f.offset.toNat ≤ g ∧ g < f.offset.toNat + f.length.toNat then
      (handles[fi]?).join.map fun file => (file, g - f.offset.toNat)
    else locate handles (fi + 1) files g

variable {handles : List (Option F)} {a b fi g lo : Nat} {files : List FileLayout}

theorem covers_iff {p : Nat} {file : F} (hplaced : Placed lo files) :
    Covers handles fi files a b file p g ↔
      locate handles fi files g = some (file, p) ∧ a ≤ g ∧ g < b := by
  induction files generalizing fi lo a b with
  | nil => exact ⟨fun h => absurd h covers_nil, fun h => by cases h.1⟩
  | cons f files ih =>
    obtain ⟨hoff, hplaced⟩ := hplaced
    rw [covers_cons, ih hplaced, locate]
    split
    · rename_i hin
      constructor
      · rintro (⟨hslot, hp, hg, hlo, hhi⟩ | ⟨hloc, _, _⟩)
        · refine ⟨?_, hlo, hhi⟩
          rw [hslot, hg, Nat.add_sub_cancel_left]
          rfl
        · -- a byte of this file lies in none of the others
          obtain ⟨k, f', hk, -, hp, hg, -⟩ :=
            (@ih g (g + 1) (fi + 1) (lo + f.length.toNat) hplaced).mpr
              ⟨hloc, Nat.le_refl g, Nat.lt_succ_self g⟩
          have := (hplaced.bounds hk).1
          omega
      · rintro ⟨hloc, hlo, hhi⟩
        obtain ⟨file', hslot, heq⟩ := Option.map_eq_some_iff.mp hloc
        obtain ⟨rfl, rfl⟩ := Prod.mk.inj heq
        refine .inl ⟨Option.join_eq_some_iff.mp hslot, ?_, ?_, hlo, hhi⟩
        · omega
        · omega
    · rename_i hout
      constructor
      · rintro (⟨_, hp, hg, _, _⟩ | h)
        · omega
        · exact h
      · exact .inr

/-- Byte number `g` lies in one of the files. -/
theorem locate_lt {at_ : F × Nat} (hplaced : Placed lo files)
    (h : locate handles fi files g = some at_) :
    lo ≤ g ∧ g < lo + total (fun f => f.length.toNat) files := by
  obtain ⟨k, f, hk, -, hp, hg, -⟩ :=
    (covers_iff hplaced).mpr ⟨h, Nat.le_refl g, Nat.lt_succ_self g⟩
  have := hplaced.bounds hk
  omega

/-! ## Writing, when writes fail -/

/-- From the contents `c` to `c'`: the positions that `hit` does not reach keep their value, and
when the writing is `done`, each that it does reach holds what was written there last. -/
structure Overlay (hit : F → Nat → Nat → Prop) (start : Nat) (data : List UInt8)
    (c c' : F → List UInt8) (done : Prop) : Prop where
  outside : ∀ (file : F) (p : Nat), (∀ g, ¬hit file p g) →
    ((c' file)[p]?).getD 0 = ((c file)[p]?).getD 0
  grows : ∀ file : F, (c file).length ≤ (c' file).length
  last : done → ∀ (file : F) (p g : Nat), hit file p g →
    ∃ g' b, g ≤ g' ∧ hit file p g' ∧ data[g' - start]? = some b ∧ (c' file)[p]? = some b

theorem Overlay.of_no_hit {hit : F → Nat → Nat → Prop} (h : ∀ file p g, ¬hit file p g) (start : Nat)
    (data : List UInt8) (c : F → List UInt8) (done : Prop) : Overlay hit start data c c done :=
  ⟨fun _ _ _ => rfl, fun _ => Nat.le_refl _, fun _ file p g hg => absurd hg (h file p g)⟩

variable {data : List UInt8}

/-- What is at a position stays there when the writing does not reach it. -/
theorem Overlay.stays {hit : F → Nat → Nat → Prop} {start : Nat} {c c' : F → List UInt8}
    {done : Prop} (h : Overlay hit start data c c' done) {file : F} {p : Nat} {b : UInt8}
    (hno : ∀ g, ¬hit file p g) (hb : (c file)[p]? = some b) : (c' file)[p]? = some b :=
  getElem?_eq_some_of_getD hb (h.grows file) (h.outside file p hno)

variable [DecidableEq F]

/-- A write, which may fail in the middle. -/
theorem Disk.write_cases (d : Disk F) (file : F) (offset : Nat) (data : List UInt8) :
    ∃ part d' r, d.write file offset data = (d', r) ∧
      d'.content = (fun f => if f = file then writeAt 0 (d.content file) offset part
        else d.content f) ∧
      part <+: data ∧ (r = .ok () → part = data) ∧
      (d.outcomes = [] → r = .ok () ∧ d'.outcomes = []) := by
  rw [Disk.write]
  dsimp only
  cases d.outcomes with
  | nil => exact ⟨data, _, _, rfl, rfl, List.prefix_refl _, fun _ => rfl, fun _ => ⟨rfl, rfl⟩⟩
  | cons o rest =>
    cases o with
    | done => exact ⟨data, _, _, rfl, rfl, List.prefix_refl _, fun _ => rfl, nofun⟩
    | fail written =>
      exact ⟨data.take written, _, _, rfl, rfl, List.take_prefix _ _, nofun, nofun⟩

/-- **Writing segments**, whatever fails and whichever files are one: only the span of the piece
is touched, a file grows no further than that takes, and a writing that ends well leaves the last
byte that belongs at each position. -/
theorem writeSegments_overlay {ps pe : UInt64} (hfit : pe.toNat - ps.toNat ≤ data.length)
    (hlen : fi + files.length = handles.length) (hplaced : Placed lo files) {segs : List Segment}
    (hsegs : segmentsFrom ps pe fi files = some segs) (d : Disk F) :
    ∃ d' r, PieceStore.writeSegments handles data (reached ps.toNat pe.toNat lo) segs d =
        some (d', r) ∧ (d.outcomes = [] → r = .ok () ∧ d'.outcomes = []) ∧
      Overlay (Covers handles fi files ps.toNat pe.toNat) ps.toNat data d.content d'.content
        (r = .ok ()) ∧
      ∀ (file : F) (p : Nat), p < (d'.content file).length → p < (d.content file).length ∨
        ∃ p' g, p ≤ p' ∧ Covers handles fi files ps.toNat pe.toNat file p' g := by
  induction files generalizing fi lo segs d with
  | nil =>
    obtain rfl := Option.some.inj hsegs
    exact ⟨d, .ok (), rfl, fun hd => ⟨rfl, hd⟩, .of_no_hit (fun _ _ _ => covers_nil) _ _ _ _,
      fun _ _ hp => .inl hp⟩
  | cons f files ih =>
    obtain ⟨hoff, hplaced⟩ := hplaced
    obtain ⟨rest, hrest, hcut⟩ := PieceLayout.segmentsFrom_cons hsegs
    have hlen' : fi + 1 + files.length = handles.length := by
      rw [← hlen, List.length_cons]
      omega
    rcases hcut with ⟨rfl, hout⟩ | ⟨off, len, rfl, hlo, hhi, hoffset, hto⟩
    · -- the file lies outside of the piece
      rw [reached_of_outside (hoff ▸ hout), covers_tail (.inr hout)]
      exact ih hlen' hplaced hrest d
    · have hreached : reached ps.toNat pe.toNat lo + len.toNat =
          reached ps.toNat pe.toNat (lo + f.length.toNat) := by
        unfold reached
        omega
      have hbound : reached ps.toNat pe.toNat lo + len.toNat ≤ data.length := by
        rw [hreached]
        unfold reached
        omega
      have hslot : handles[fi]? = some (handles.get ⟨fi, by omega⟩) := List.getElem?_eq_getElem _
      rw [PieceStore.writeSegments, if_neg (Nat.not_lt.mpr hbound)]
      dsimp only
      cases hget : handles.get ⟨fi, by omega⟩ with
      | none =>
        rw [hget] at hslot
        rw [hslot, hreached, covers_tail (.inl hslot)]
        exact ih hlen' hplaced hrest d
      | some file =>
        rw [hget] at hslot
        rw [hslot]
        dsimp only
        have hpartlen : ((data.drop (reached ps.toNat pe.toNat lo)).take len.toNat).length =
            len.toNat := by
          rw [List.length_take, List.length_drop]
          omega
        obtain ⟨part, d₁, r₁, hwrite₁, hcontent, hprefix, hdone, hok₁⟩ :=
          d.write_cases file off.toNat
            ((data.drop (reached ps.toNat pe.toNat lo)).take len.toNat)
        have hpart : part.length ≤ len.toNat := hpartlen ▸ hprefix.length_le
        -- what the one write does
        have hcovers : ∀ p, off.toNat ≤ p → p < off.toNat + part.length →
            Covers handles fi (f :: files) ps.toNat pe.toNat file p (f.offset.toNat + p) :=
          fun p hlo hhi => covers_cons.mpr (.inl ⟨hslot, by omega, rfl, by omega, by omega⟩)
        have houtside : ∀ (file' : F) (p : Nat),
            (∀ g, ¬Covers handles fi (f :: files) ps.toNat pe.toNat file' p g) →
            ((d₁.content file')[p]?).getD 0 = ((d.content file')[p]?).getD 0 := by
          intro file' p hno
          rw [hcontent]
          dsimp only
          split
          · rename_i heq
            subst heq
            refine getD_writeAt_of_not_mem (Classical.byContradiction fun hin => ?_)
            exact hno _ (hcovers p (by omega) (by omega))
          · rfl
        have hgrows : ∀ file', (d.content file').length ≤ (d₁.content file').length := by
          intro file'
          rw [hcontent]
          dsimp only
          split
          · rename_i heq
            subst heq
            exact length_le_writeAt _ _ _
          · exact Nat.le_refl _
        have hreach : ∀ (file' : F) (p : Nat), p < (d₁.content file').length →
            p < (d.content file').length ∨
              ∃ p' g, p ≤ p' ∧ Covers handles fi (f :: files) ps.toNat pe.toNat file' p' g := by
          intro file' p hp
          rw [hcontent] at hp
          dsimp only at hp
          split at hp
          · rename_i heq
            subst heq
            refine (lt_length_writeAt hp).imp_right fun ⟨hlt, hne⟩ => ?_
            have hpos : 0 < part.length := List.length_pos_iff.mpr hne
            by_cases hp' : off.toNat ≤ p
            · exact ⟨p, _, Nat.le_refl _, hcovers p hp' hlt⟩
            · exact ⟨off.toNat, _, by omega, hcovers off.toNat (Nat.le_refl _) (by omega)⟩
          · exact .inl hp
        rw [hwrite₁]
        cases r₁ with
        | error e =>
          refine ⟨d₁, .error e, rfl, fun hd => ?_, ⟨houtside, hgrows, fun h => ?_⟩, hreach⟩
          · cases (hok₁ hd).1
          · cases h
        | ok u =>
          obtain ⟨d', r, hwrite, hok, hover, hfar⟩ := ih hlen' hplaced hrest d₁
          rw [hreached]
          refine ⟨d', r, hwrite, fun hd => hok (hok₁ hd).2, ⟨fun file' p hno => ?_,
            fun file' => Nat.le_trans (hgrows file') (hover.grows file'), ?_⟩, fun file' p hp => ?_⟩
          · rw [hover.outside file' p fun g hg => hno g (covers_cons.mpr (.inr hg))]
            exact houtside file' p hno
          · intro hr file' p g hg
            rcases covers_cons.mp hg with ⟨hslot', hp, rfl, hge, hlt⟩ | hg
            · by_cases hlater : ∃ g', Covers handles (fi + 1) files ps.toNat pe.toNat file' p g'
              · -- a later file writes there once more
                obtain ⟨g₁, hg₁⟩ := hlater
                obtain ⟨g', b, hle, hg', hb, hget'⟩ := hover.last hr file' p g₁ hg₁
                refine ⟨g', b, ?_, covers_cons.mpr (.inr hg'), hb, hget'⟩
                obtain ⟨k, f', hk, -, -, hpos, -⟩ := hg₁
                have := (hplaced.bounds hk).1
                omega
              · obtain rfl : file = file' :=
                  Option.some.inj (Option.some.inj (hslot.symm.trans hslot'))
                obtain rfl := hdone rfl
                have hmine : reached ps.toNat pe.toNat lo + (p - off.toNat) =
                    f.offset.toNat + p - ps.toNat := by
                  unfold reached
                  omega
                have hbyte : f.offset.toNat + p - ps.toNat < data.length := by omega
                refine ⟨_, _, Nat.le_refl _, hg, List.getElem?_eq_getElem hbyte, ?_⟩
                refine hover.stays (fun g' hg' => hlater ⟨g', hg'⟩) ?_
                rw [hcontent]
                dsimp only
                rw [if_pos rfl, getElem?_writeAt_of_mem (by omega) (by omega), List.getElem?_take,
                  if_pos (by omega), List.getElem?_drop, hmine]
                exact List.getElem?_eq_getElem hbyte
            · obtain ⟨g', b, hle, hg', hb, hget'⟩ := hover.last hr file' p g hg
              exact ⟨g', b, hle, covers_cons.mpr (.inr hg'), hb, hget'⟩
          · rcases hfar file' p hp with hp | ⟨p', g, hle, hg⟩
            · exact hreach file' p hp
            · exact .inr ⟨p', g, hle, covers_cons.mpr (.inr hg)⟩

/-- Over files of which no two are one, **writing segments** puts the data where the files cover
the span of the piece. -/
theorem writeSegments_wrote {ps pe : UInt64} (hfit : pe.toNat - ps.toNat ≤ data.length)
    (hlen : fi + files.length = handles.length) (hplaced : Placed lo files)
    (hsep : Separate handles fi files) {segs : List Segment}
    (hsegs : segmentsFrom ps pe fi files = some segs) {d : Disk F} (hd : d.outcomes = []) :
    ∃ d', PieceStore.writeSegments handles data (reached ps.toNat pe.toNat lo) segs d =
        some (d', .ok ()) ∧ d'.outcomes = [] ∧
      Wrote (Covers handles fi files ps.toNat pe.toNat) ps.toNat data d.content d'.content := by
  obtain ⟨d', r, hwrite, hok, hover, hreach⟩ :=
    writeSegments_overlay hfit hlen hplaced hsegs d
  obtain ⟨rfl, hd'⟩ := hok hd
  refine ⟨d', hwrite, hd', fun file p g hg => ?_, hover.outside, hover.grows, hreach⟩
  obtain ⟨g', b, -, hg', hb, hget⟩ := hover.last rfl file p g hg
  obtain rfl := hsep.byte_unique hg hg'
  exact ⟨b, hb, hget⟩

/-! ## Blocks -/

/-- The bytes from number `a` to `b` that lie in open files, when byte `g` is `v g`. -/
def openBytes (handles : List (Option F)) (fi : Nat) (files : List FileLayout) (v : Nat → UInt8)
    (a b : Nat) : List UInt8 :=
  ((List.range' a (b - a)).filter fun g => (locate handles fi files g).isSome).map v

variable {v : Nat → UInt8}

omit [DecidableEq F]

theorem openBytes_split {m : Nat} (ham : a ≤ m) (hmb : m ≤ b) :
    openBytes handles fi files v a b =
      openBytes handles fi files v a m ++ openBytes handles fi files v m b := by
  rw [openBytes, openBytes, openBytes, ← List.map_append, ← List.filter_append]
  congr 2
  rw [show b - a = (m - a) + (b - m) by omega, ← List.range'_append_1,
    show a + (m - a) = m by omega]

theorem openBytes_congr {handles' : List (Option F)} {fi' : Nat} {files' : List FileLayout}
    {v' : Nat → UInt8}
    (h : ∀ g, a ≤ g → g < b → (locate handles fi files g).isSome =
      (locate handles' fi' files' g).isSome ∧ v g = v' g) :
    openBytes handles fi files v a b = openBytes handles' fi' files' v' a b := by
  have hmem : ∀ g ∈ List.range' a (b - a), a ≤ g ∧ g < b := by
    intro g hg
    have := List.mem_range'_1.mp hg
    omega
  rw [openBytes, openBytes, List.filter_congr fun g hg => (h g (hmem g hg).1 (hmem g hg).2).1]
  refine List.map_congr_left fun g hg => ?_
  have hg := hmem g (List.mem_filter.mp hg).1
  exact (h g hg.1 hg.2).2

/-- Where all files are open, the bytes are all there. -/
theorem openBytes_all (h : ∀ g, a ≤ g → g < b → (locate handles fi files g).isSome = true) :
    openBytes handles fi files v a b = (List.range' a (b - a)).map v := by
  rw [openBytes, List.filter_eq_self.mpr]
  intro g hg
  have := List.mem_range'_1.mp hg
  exact h g this.1 (by omega)

theorem openBytes_none (h : ∀ g, a ≤ g → g < b → (locate handles fi files g).isSome = false) :
    openBytes handles fi files v a b = [] := by
  rw [openBytes, List.filter_eq_nil_iff.mpr, List.map_nil]
  intro g hg
  have := List.mem_range'_1.mp hg
  rw [h g this.1 (by omega)]
  exact Bool.false_ne_true

variable {f : FileLayout}

theorem locate_cons_out (h : g < f.offset.toNat ∨ f.offset.toNat + f.length.toNat ≤ g) :
    locate handles fi (f :: files) g = locate handles (fi + 1) files g := by
  rw [locate, if_neg (by omega)]

theorem locate_cons_isSome (hlo : f.offset.toNat ≤ g) (hhi : g < f.offset.toNat + f.length.toNat)
    {slot : Option F} (hslot : handles[fi]? = some slot) :
    (locate handles fi (f :: files) g).isSome = slot.isSome := by
  rw [locate, if_pos ⟨hlo, hhi⟩, hslot, Option.isSome_map]
  rfl

/-- A slice of the data, byte by byte. -/
theorem slice_eq {start r n : Nat} (h : r + n ≤ data.length) :
    (data.take (r + n)).drop r =
      (List.range' (start + r) n).map fun g => data.getD (g - start) 0 := by
  refine List.ext_getElem? fun i => ?_
  rw [List.getElem?_drop, List.getElem?_take, List.getElem?_map]
  by_cases hi : i < n
  · rw [if_pos (by omega), List.getElem?_range' hi, Option.map_some,
      List.getElem?_eq_getElem (by omega), List.getD_eq_getElem?_getD,
      show start + r + 1 * i - start = r + i by omega, List.getElem?_eq_getElem (by omega),
      Option.getD_some]
  · rw [if_neg (by omega), List.getElem?_eq_none (by rw [List.length_range']; omega),
      Option.map_none]

/-- A file outside of the span. -/
theorem openBytes_cons_out (hoff : f.offset.toNat = lo) (hout : b ≤ lo ∨ lo + f.length.toNat ≤ a) :
    openBytes handles fi (f :: files) v (max a lo) b =
      openBytes handles (fi + 1) files v (max a (lo + f.length.toNat)) b := by
  by_cases hb : b ≤ lo
  · rw [openBytes_none (fun g hg hg' => by omega), openBytes_none (fun g hg hg' => by omega)]
  · rw [show max a lo = max a (lo + f.length.toNat) by omega]
    exact openBytes_congr fun g hg _ => ⟨by rw [locate_cons_out (.inr (by omega))], rfl⟩

/-- A file that the span meets. -/
theorem openBytes_cons_in (hoff : f.offset.toNat = lo) (hab : a ≤ b) (hlo : lo < b)
    (hhi : a < lo + f.length.toNat) {slot : Option F} (hslot : handles[fi]? = some slot) :
    openBytes handles fi (f :: files) v (max a lo) b =
      (if slot.isSome then
        (List.range' (max a lo) (min b (lo + f.length.toNat) - max a lo)).map v else []) ++
        openBytes handles (fi + 1) files v (max a (lo + f.length.toNat)) b := by
  have hthis : ∀ g, max a lo ≤ g → g < min b (lo + f.length.toNat) →
      (locate handles fi (f :: files) g).isSome = slot.isSome := fun g hlo hhi =>
    locate_cons_isSome (by omega) (by omega) hslot
  have hrest : openBytes handles fi (f :: files) v (min b (lo + f.length.toNat)) b =
      openBytes handles (fi + 1) files v (max a (lo + f.length.toNat)) b := by
    by_cases hb : b ≤ lo + f.length.toNat
    · rw [openBytes_none (fun g hg hg' => by omega), openBytes_none (fun g hg hg' => by omega)]
    · rw [show min b (lo + f.length.toNat) = max a (lo + f.length.toNat) by omega]
      exact openBytes_congr fun g hg _ => ⟨by rw [locate_cons_out (.inr (by omega))], rfl⟩
  rw [openBytes_split (show max a lo ≤ min b (lo + f.length.toNat) by omega) (by omega), hrest]
  cases slot with
  | none =>
    rw [openBytes_none hthis]
    rfl
  | some file =>
    rw [openBytes_all hthis]
    rfl

/-- **A block of a cached piece** is what lies in open files of it. -/
theorem cachedBlock_eq {ps bs be : UInt64} (hps : ps.toNat ≤ bs.toNat) (hbs : bs.toNat ≤ be.toNat)
    (hfit : be.toNat ≤ ps.toNat + data.length) (hlen : fi + files.length = handles.length)
    (hplaced : Placed lo files)
    (hsize : lo + total (fun f => f.length.toNat) files < 18446744073709551616) :
    PieceStore.cachedBlock handles data ps bs be fi files =
      some (openBytes handles fi files (fun g => data.getD (g - ps.toNat) 0)
        (max bs.toNat lo) be.toNat) := by
  induction files generalizing fi lo with
  | nil =>
    rw [openBytes_none (fun _ _ _ => rfl)]
    rfl
  | cons f files ih =>
    obtain ⟨hoff, hplaced⟩ := hplaced
    rw [Tiling.total_cons] at hsize
    obtain ⟨fEnd, hadd, hend⟩ := @Checked.exists_add f.offset f.length (by omega)
    have ih := @ih (fi + 1) (lo + f.length.toNat) (by rw [← hlen, List.length_cons]; omega) hplaced
      (by omega)
    simp only [PieceStore.cachedBlock, hadd, Option.bind_eq_bind, Option.bind_some]
    split
    · rename_i hout
      rw [outside_iff] at hout
      rw [ih, openBytes_cons_out hoff (by omega)]
    · rename_i hin
      rw [outside_iff] at hin
      have hslot : handles[fi]? = some (handles.get ⟨fi, by rw [List.length_cons] at hlen; omega⟩) :=
        List.getElem?_eq_getElem _
      rw [hslot, ih, openBytes_cons_in hoff hbs (by omega) (by omega) hslot, Option.bind_some,
        Option.bind_some]
      cases handles.get ⟨fi, _⟩ with
      | none => rfl
      | some file =>
        have hmax : (max bs f.offset).toNat = max bs.toNat lo := by rw [Word.toNat_max, hoff]
        have hmin : (min be fEnd).toNat = min be.toNat (lo + f.length.toNat) := by
          rw [Word.toNat_min, hend, hoff]
        obtain ⟨rel, hrel, hr⟩ := @Checked.exists_sub (max bs f.offset) ps (by omega)
        obtain ⟨n, hn, hn'⟩ := @Checked.exists_sub (min be fEnd) (max bs f.offset) (by omega)
        simp only [Option.isNone_some, Option.isSome_some, Bool.false_eq_true, if_false, if_true,
          hrel, hn, Option.bind_some]
        have hslice := @slice_eq data ps.toNat rel.toNat n.toNat (by omega)
        rw [show ps.toNat + rel.toNat = max bs.toNat lo by omega,
          show n.toNat = min be.toNat (lo + f.length.toNat) - max bs.toNat lo by omega] at hslice
        rw [← hslice]
        split
        · -- an empty part at the end of the data
          rw [List.drop_eq_nil_of_le, List.nil_append]
          rw [List.length_take]
          omega
        · rw [show n.toNat = min be.toNat (lo + f.length.toNat) - max bs.toNat lo by omega]

variable {ps pe : UInt64} {segs : List Segment}

/-- **The segments of a cached piece** are what lies in open files of it. -/
theorem cachedSegments_eq (hfit : pe.toNat - ps.toNat ≤ data.length)
    (hlen : fi + files.length = handles.length) (hplaced : Placed lo files)
    (hsegs : segmentsFrom ps pe fi files = some segs) :
    PieceStore.cachedSegments handles data (reached ps.toNat pe.toNat lo) segs =
      some (openBytes handles fi files (fun g => data.getD (g - ps.toNat) 0)
        (max ps.toNat lo) pe.toNat) := by
  induction files generalizing fi lo segs with
  | nil =>
    obtain rfl := Option.some.inj hsegs
    rw [openBytes_none (fun _ _ _ => rfl)]
    rfl
  | cons f files ih =>
    obtain ⟨hoff, hplaced⟩ := hplaced
    obtain ⟨rest, hrest, hcut⟩ := PieceLayout.segmentsFrom_cons hsegs
    have ih := ih (by rw [← hlen, List.length_cons]; omega) hplaced hrest
    rcases hcut with ⟨rfl, hout⟩ | ⟨off, len, rfl, hlo, hhi, hoffset, hto⟩
    · rw [openBytes_cons_out hoff (hoff ▸ hout), reached_of_outside (hoff ▸ hout), ih]
    · have hreached : reached ps.toNat pe.toNat lo + len.toNat =
          reached ps.toNat pe.toNat (lo + f.length.toNat) := by
        unfold reached
        omega
      have hslot : handles[fi]? = some (handles.get ⟨fi, by rw [List.length_cons] at hlen; omega⟩) :=
        List.getElem?_eq_getElem _
      rw [openBytes_cons_in hoff (by omega) (by omega) (by omega) hslot]
      simp only [PieceStore.cachedSegments, hslot, hreached, ih, Option.bind_eq_bind,
        Option.bind_some]
      cases handles.get ⟨fi, _⟩ with
      | none => rfl
      | some file =>
        have hfirst : ps.toNat + reached ps.toNat pe.toNat lo = max ps.toNat lo := by
          unfold reached
          omega
        have hslice := @slice_eq data ps.toNat (reached ps.toNat pe.toNat lo) len.toNat (by
          rw [hreached]
          unfold reached
          omega)
        rw [hfirst, hreached,
          show len.toNat = min pe.toNat (lo + f.length.toNat) - max ps.toNat lo by omega] at hslice
        rw [hslice]
        rfl

/-- **The segments on the disk**, where the open files hold the bytes `v`. -/
theorem readSegments_eq (hlen : fi + files.length = handles.length) (hplaced : Placed lo files)
    {content : F → List UInt8}
    (hdisk : ∀ file p g, Covers handles fi files ps.toNat pe.toNat file p g →
      (content file)[p]? = some (v g))
    (hsegs : segmentsFrom ps pe fi files = some segs) :
    PieceStore.readSegments handles content segs =
      some (.ok (openBytes handles fi files v (max ps.toNat lo) pe.toNat)) := by
  induction files generalizing fi lo segs with
  | nil =>
    obtain rfl := Option.some.inj hsegs
    rw [openBytes_none (fun _ _ _ => rfl)]
    rfl
  | cons f files ih =>
    obtain ⟨hoff, hplaced⟩ := hplaced
    obtain ⟨rest, hrest, hcut⟩ := PieceLayout.segmentsFrom_cons hsegs
    have ih := ih (by rw [← hlen, List.length_cons]; omega) hplaced
      (fun file p g hg => hdisk file p g (covers_cons.mpr (.inr hg))) hrest
    rcases hcut with ⟨rfl, hout⟩ | ⟨off, len, rfl, hlo, hhi, hoffset, hto⟩
    · rw [openBytes_cons_out hoff (by omega), ih]
    · have hslot : handles[fi]? = some (handles.get ⟨fi, by rw [List.length_cons] at hlen; omega⟩) :=
        List.getElem?_eq_getElem _
      rw [openBytes_cons_in hoff (by omega) (by omega) (by omega) hslot]
      simp only [PieceStore.readSegments, hslot, ih, Option.bind_eq_bind, Option.bind_some]
      cases hget : handles.get ⟨fi, _⟩ with
      | none => rfl
      | some file =>
        rw [hget] at hslot
        have hpart : readAt (content file) off.toNat len.toNat = some
            ((List.range' (max ps.toNat lo) (min pe.toNat (lo + f.length.toNat) - max ps.toNat lo)).map
              v) := by
          refine readAt_eq_some.mpr ⟨?_, fun j hj => ?_⟩
          · rw [List.length_map, List.length_range']
            omega
          · rw [List.getElem?_map, List.getElem?_range' (by omega), Option.map_some,
              hdisk file (off.toNat + j) (f.offset.toNat + (off.toNat + j))
                (covers_cons.mpr (.inl ⟨hslot, by omega, rfl, by omega, by omega⟩))]
            rw [show max ps.toNat lo + 1 * j = f.offset.toNat + (off.toNat + j) by omega]
        simp only [hpart]
        rfl

end XferRust.Storage
