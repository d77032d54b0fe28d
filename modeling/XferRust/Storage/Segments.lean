import XferRust.Storage.PieceStore

/-! # Pieces on the disk

Where the bytes of a piece lie in the open files, and what writing and reading its segments does
to these bytes and to no others.
-/
namespace XferRust.Storage
open Tiling (total)
open ByteFile

variable {F : Type}

namespace PieceStore

/-- Byte `rel` of piece `index` belongs at position `p` of `file`, which is open. -/
def ByteAt (s : PieceStore F) (index : UInt32) (file : F) (p rel : Nat) : Prop :=
  ∃ (k : Nat) (f : FileLayout), s.layout.files[k]? = some f ∧ s.files[k]? = some (some file) ∧ p < f.length.toNat ∧
    f.offset.toNat + p = index.toNat * s.layout.pieceLength.toNat + rel ∧
    rel < s.layout.pieceLength.toNat

/-- All bytes of an entry that belong in open files are there. -/
def OnDisk (s : PieceStore F) (c : CachedPiece) : Prop :=
  ∀ file p rel b, s.ByteAt c.index file p rel → c.data[rel]? = some b →
    (s.disk.content file)[p]? = some b

end PieceStore

/-! ## Positions -/

namespace PieceLayout

theorem Placed.bounds {lo : Nat} {files : List FileLayout} (h : Placed lo files) {k : Nat}
    {f : FileLayout} (hk : files[k]? = some f) :
    lo ≤ f.offset.toNat ∧
      f.offset.toNat + f.length.toNat ≤ lo + total (fun f => f.length.toNat) files := by
  induction files generalizing lo k with
  | nil => cases hk
  | cons g files ih =>
    obtain ⟨hoff, hrest⟩ := h
    rw [Tiling.total_cons]
    cases k with
    | zero =>
      obtain rfl := Option.some.inj hk
      omega
    | succ k =>
      have := ih hrest hk
      omega

/-- The bytes of a piece, as the layout's files have them. -/
def pieceSize (l : PieceLayout) (index : UInt32) : Nat :=
  min (l.size - index.toNat * l.pieceLength.toNat) l.pieceLength.toNat

theorem pieceLen_eq_some {l : PieceLayout} {index : UInt32} {n : UInt64}
    (h : l.pieceLen index = some n) : n.toNat = l.pieceSize index := by
  obtain ⟨size, hsize, h⟩ := Option.bind_eq_some_iff.mp h
  obtain ⟨start, hstart, h⟩ := Option.bind_eq_some_iff.mp h
  have hs := totalLength_eq_some.mp hsize
  have hm : start.toNat = index.toNat * l.pieceLength.toNat := Checked.mul_eq_some.mp hstart
  unfold pieceSize
  split at h
  · rename_i hge
    rw [ge_iff_le, UInt64.le_iff_toNat_le] at hge
    rw [← Option.some.inj h, UInt64.toNat_zero]
    omega
  · rename_i hlt
    rw [ge_iff_le, UInt64.le_iff_toNat_le] at hlt
    obtain ⟨rest, hrest, h⟩ := Option.bind_eq_some_iff.mp h
    have hr := Checked.sub_eq_some.mp hrest
    rw [← Option.some.inj h, Word.toNat_min]
    omega

end PieceLayout

/-- Position `p` of `file` is number `g` of all bytes, and lies between `lo` and `hi`, in one of
`files`, of which the first has number `fi`. -/
def Covers (handles : List (Option F)) (fi : Nat) (files : List FileLayout) (lo hi : Nat)
    (file : F) (p g : Nat) : Prop :=
  ∃ (k : Nat) (f : FileLayout), files[k]? = some f ∧ handles[fi + k]? = some (some file) ∧
    p < f.length.toNat ∧ g = f.offset.toNat + p ∧ lo ≤ g ∧ g < hi

variable {fi g hi lo p : Nat} {handles : List (Option F)} {file : F}

theorem covers_nil : ¬ Covers handles fi [] lo hi file p g := by
  rintro ⟨k, f, hk, -⟩
  cases hk

variable {files : List FileLayout}

theorem covers_cons {f : FileLayout} :
    Covers handles fi (f :: files) lo hi file p g ↔
      (handles[fi]? = some (some file) ∧ p < f.length.toNat ∧ g = f.offset.toNat + p ∧ lo ≤ g ∧
        g < hi) ∨ Covers handles (fi + 1) files lo hi file p g := by
  constructor
  · rintro ⟨k, f', hk, hfile, hpos⟩
    cases k with
    | zero =>
      obtain rfl := Option.some.inj hk
      exact .inl ⟨hfile, hpos⟩
    | succ k => exact .inr ⟨k, f', hk, by rwa [Nat.add_right_comm], hpos⟩
  · rintro (⟨hfile, hpos⟩ | ⟨k, f', hk, hfile, hpos⟩)
    · exact ⟨0, f, rfl, hfile, hpos⟩
    · exact ⟨k + 1, f', hk, by rwa [Nat.add_right_comm] at hfile, hpos⟩

/-- A file that is not open, or outside of the span, covers nothing. -/
theorem covers_tail {f : FileLayout}
    (h : handles[fi]? = some none ∨ hi ≤ f.offset.toNat ∨ f.offset.toNat + f.length.toNat ≤ lo) :
    Covers handles fi (f :: files) lo hi = Covers handles (fi + 1) files lo hi := by
  funext file p g
  rw [covers_cons]
  refine propext ⟨fun hg => hg.resolve_left ?_, .inr⟩
  rintro ⟨hslot, hp, rfl, hge, hlt⟩
  rcases h with hnone | hout
  · cases hslot.symm.trans hnone
  · omega

theorem Covers.mono {lo' hi' : Nat} (h : Covers handles fi files lo hi file p g)
    (hsub : lo ≤ g → g < hi → lo' ≤ g ∧ g < hi') : Covers handles fi files lo' hi' file p g := by
  obtain ⟨k, f, hk, hfile, hp, hpos, hlo, hhi⟩ := h
  exact ⟨k, f, hk, hfile, hp, hpos, hsub hlo hhi⟩

variable {pe ps : UInt64} {segs : List Segment}

/-- **The segments of a span** are the cuts with the files that it meets. -/
theorem PieceLayout.mem_segmentsFrom (h : PieceLayout.segmentsFrom ps pe fi files = some segs)
    {seg : Segment} :
    seg ∈ segs ↔ ∃ (k : Nat) (f : FileLayout), files[k]? = some f ∧ seg.file = fi + k ∧
      f.offset.toNat < pe.toNat ∧ ps.toNat < f.offset.toNat + f.length.toNat ∧
      seg.offset.toNat + f.offset.toNat = max ps.toNat f.offset.toNat ∧
      seg.offset.toNat + f.offset.toNat + seg.len.toNat =
        min pe.toNat (f.offset.toNat + f.length.toNat) := by
  induction files generalizing fi segs with
  | nil =>
    obtain rfl := Option.some.inj h
    exact ⟨nofun, fun ⟨k, f, hk, _⟩ => nomatch hk⟩
  | cons f files ih =>
    obtain ⟨rest, hrest, hcut⟩ := PieceLayout.segmentsFrom_cons h
    have hlater : seg ∈ rest ↔ ∃ (k : Nat) (f' : FileLayout), (f :: files)[k + 1]? = some f' ∧
        seg.file = fi + (k + 1) ∧ f'.offset.toNat < pe.toNat ∧
        ps.toNat < f'.offset.toNat + f'.length.toNat ∧
        seg.offset.toNat + f'.offset.toNat = max ps.toNat f'.offset.toNat ∧
        seg.offset.toNat + f'.offset.toNat + seg.len.toNat =
          min pe.toNat (f'.offset.toNat + f'.length.toNat) := by
      rw [ih hrest]
      refine exists_congr fun k => exists_congr fun f' => ?_
      rw [List.getElem?_cons_succ, Nat.add_right_comm, Nat.add_assoc]
    rcases hcut with ⟨rfl, hout⟩ | ⟨off, len, rfl, hlo, hhi, hoffset, hto⟩
    · rw [hlater]
      refine ⟨fun ⟨k, f', h⟩ => ⟨k + 1, f', h⟩, fun ⟨k, f', hk, hfile, hlo, hhi, hcut⟩ => ?_⟩
      cases k with
      | zero =>
        obtain rfl := Option.some.inj hk
        clear hlater
        omega
      | succ k => exact ⟨k, f', hk, hfile, hlo, hhi, hcut⟩
    · rw [List.mem_cons, hlater]
      constructor
      · rintro (rfl | ⟨k, f', h⟩)
        · exact ⟨0, f, rfl, rfl, hlo, hhi, hoffset, hto⟩
        · exact ⟨k + 1, f', h⟩
      · rintro ⟨k, f', hk, hfile, hrest⟩
        cases k with
        | zero =>
          obtain rfl := Option.some.inj hk
          obtain ⟨file, soff, slen⟩ := seg
          dsimp only at hfile hrest
          refine .inl ?_
          rw [show file = fi from hfile, UInt64.toNat_inj.mp (show soff.toNat = off.toNat by omega),
            UInt64.toNat_inj.mp (show slen.toNat = len.toNat by omega)]
        | succ k => exact .inr ⟨k, f', hk, hfile, hrest⟩

/-- No two open files that hold bytes are one file. -/
def Separate (handles : List (Option F)) (fi : Nat) (files : List FileLayout) : Prop :=
  ∀ (j k : Nat) (f g : FileLayout) (file : F), files[j]? = some f → files[k]? = some g →
    handles[fi + j]? = some (some file) → handles[fi + k]? = some (some file) →
    0 < f.length.toNat → 0 < g.length.toNat → j = k

/-- A position belongs to one byte only. -/
theorem Separate.byte_unique (h : Separate handles fi files) {g' : Nat}
    (hg : Covers handles fi files lo hi file p g) (hg' : Covers handles fi files lo hi file p g') :
    g = g' := by
  obtain ⟨k, f, hk, hfile, hp, hpos, -⟩ := hg
  obtain ⟨k', f', hk', hfile', hp', hpos', -⟩ := hg'
  obtain rfl := h k k' f f' file hk hk' hfile hfile' (by omega) (by omega)
  obtain rfl := Option.some.inj (hk.symm.trans hk')
  exact hpos.trans hpos'.symm

/-! ## Writing -/

/-- From the contents `c` to `c'`: the positions of `hit` hold the bytes of `data`, numbered from
`start` on; the others keep theirs; and a file has grown no further than that takes. -/
structure Wrote (hit : F → Nat → Nat → Prop) (start : Nat) (data : List UInt8)
    (c c' : F → List UInt8) : Prop where
  inside : ∀ (file : F) (p g : Nat), hit file p g →
    ∃ b, data[g - start]? = some b ∧ (c' file)[p]? = some b
  outside : ∀ (file : F) (p : Nat), (∀ g, ¬ hit file p g) →
    ((c' file)[p]?).getD 0 = ((c file)[p]?).getD 0
  grows : ∀ file : F, (c file).length ≤ (c' file).length
  reach : ∀ (file : F) (p : Nat), p < (c' file).length →
    p < (c file).length ∨ ∃ p' g, p ≤ p' ∧ hit file p' g

/-- The length of the data up to the files that start at `lo`. -/
def reached (ps pe lo : Nat) : Nat := max ps (min lo pe) - ps

theorem reached_of_outside {a b n : Nat} (h : b ≤ lo ∨ lo + n ≤ a) :
    reached a b lo = reached a b (lo + n) := by
  unfold reached
  omega

/-! ## Reading -/

/-- Where one content has all that another has of the span, it reads the same. -/
theorem readSegments_mono {content content' : F → List UInt8}
    (hagree : ∀ file p g b, Covers handles fi files ps.toNat pe.toNat file p g →
      (content file)[p]? = some b → (content' file)[p]? = some b)
    (hsegs : PieceLayout.segmentsFrom ps pe fi files = some segs) {out : List UInt8}
    (h : PieceStore.readSegments handles content segs = some (.ok out)) :
    PieceStore.readSegments handles content' segs = some (.ok out) := by
  induction files generalizing fi segs out with
  | nil =>
    obtain rfl := Option.some.inj hsegs
    exact h
  | cons f files ih =>
    obtain ⟨rest, hrest, hcut⟩ := PieceLayout.segmentsFrom_cons hsegs
    have ih := @ih (fi + 1) rest (fun file p g b hg => hagree file p g b (covers_cons.mpr (.inr hg)))
    rcases hcut with ⟨rfl, hout⟩ | ⟨off, len, rfl, hlo, hhi, hoffset, hto⟩
    · exact ih hrest h
    · rw [PieceStore.readSegments] at h ⊢
      cases hslot : handles[fi]? with
      | none =>
        rw [hslot] at h
        cases h
      | some slot =>
        rw [hslot] at h
        cases slot with
        | none => exact ih hrest h
        | some file =>
          simp only [Option.bind_eq_bind, Option.bind_some] at h ⊢
          cases hpart : readAt (content file) off.toNat len.toNat with
          | none =>
            rw [hpart] at h
            cases h
          | some part =>
            rw [hpart] at h
            have hpart' : readAt (content' file) off.toNat len.toNat = some part :=
              readAt_mono hpart fun p a hp hp' => hagree file p (f.offset.toNat + p) a
                (covers_cons.mpr (.inl ⟨hslot, by omega, rfl, by omega, by omega⟩))
            obtain ⟨r, hr, hok⟩ := Option.map_eq_some_iff.mp h
            cases r with
            | error e => cases hok
            | ok out' =>
              rw [hpart']
              exact Option.map_eq_some_iff.mpr ⟨.ok out', ih hrest hr, hok⟩

/-- **A block on the disk** is read as its segments are. -/
theorem diskBlock_eq {content : F → List UInt8}
    (hsegs : PieceLayout.segmentsFrom ps pe fi files = some segs) :
    PieceStore.diskBlock handles content ps pe fi files =
      PieceStore.readSegments handles content segs := by
  induction files generalizing fi segs with
  | nil =>
    obtain rfl := Option.some.inj hsegs
    rfl
  | cons f files ih =>
    obtain ⟨fEnd, hadd, hsegs⟩ := Option.bind_eq_some_iff.mp hsegs
    obtain ⟨cut, hcut, hsegs⟩ := Option.bind_eq_some_iff.mp hsegs
    obtain ⟨rest, hrest, hsegs⟩ := Option.bind_eq_some_iff.mp hsegs
    obtain rfl := Option.some.inj hsegs
    simp only [PieceStore.diskBlock, hadd, hcut, ih hrest, Option.bind_eq_bind, Option.bind_some]
    cases cut with
    | none => rfl
    | some cut => rfl

end XferRust.Storage
