import XferRust.Sftp.Download

/-! # The target of an SFTP download

Every write is of the right bytes at their place, so what is right in the target stays right, and
what is durable there stays durable: `Disk.Grows` says this of two disks, and a write of a part of
the remote file and an `fsync` have it.
-/
namespace XferRust.Sftp.Download
open StepRun

variable {j : Job}

/-! ## The disk -/

theorem Job.InPiece.lt_total {idx p : Nat} (h : j.InPiece idx p) : p < j.total := by
  obtain ⟨hlo, hhi⟩ := h
  rw [pieceSize] at hhi
  omega

theorem Job.content_eq_some {p : Nat} (h : p < j.total) : ∃ v, j.content[p]? = some v :=
  ⟨_, List.getElem?_eq_getElem h⟩

/-- The bytes are those of the remote file from the offset on. -/
structure Job.Part (j : Job) (offset : Nat) (data : List UInt8) : Prop where
  agrees : ∀ k < data.length, data[k]? = j.content[offset + k]?
  fits : offset + data.length ≤ j.total

variable {offset : Nat}

theorem Job.Part.take {data : List UInt8} (h : j.Part offset data) (n : Nat) :
    j.Part offset (data.take n) where
  agrees := by
    intro k hk
    rw [List.length_take] at hk
    rw [List.getElem?_take, if_pos (by omega)]
    exact h.agrees k (by omega)
  fits := by
    have hfits := h.fits
    rw [List.length_take]
    omega

theorem Job.Part.drop {data : List UInt8} (h : j.Part offset data) {n : Nat} (hn : n ≤ data.length) :
    j.Part (offset + n) (data.drop n) where
  agrees := by
    intro k hk
    rw [List.length_drop] at hk
    rw [List.getElem?_drop, Nat.add_assoc]
    exact h.agrees (n + k) (by omega)
  fits := by
    have hfits := h.fits
    rw [List.length_drop]
    omega

theorem Job.part_nil (h : offset ≤ j.total) : j.Part offset [] where
  agrees := fun k hk => absurd hk (Nat.not_lt_zero k)
  fits := h

/-- What is read behind a part makes it longer. -/
theorem Job.Part.append {n : Nat} {data : List UInt8} (h : j.Part offset data)
    (hn : offset + data.length + n ≤ j.total) :
    j.Part offset (data ++ (j.content.drop (offset + data.length)).take n) ∧
      (data ++ (j.content.drop (offset + data.length)).take n).length = data.length + n := by
  have hlen : ((j.content.drop (offset + data.length)).take n).length = n := by
    rw [List.length_take, List.length_drop]
    exact Nat.min_eq_left (by change _ ≤ j.total - _; omega)
  refine ⟨⟨fun k hk => ?_, ?_⟩, ?_⟩
  · rw [List.length_append, hlen] at hk
    by_cases hold : k < data.length
    · rw [List.getElem?_append_left hold]
      exact h.agrees k hold
    · rw [List.getElem?_append_right (Nat.le_of_not_lt hold), List.getElem?_take,
        if_pos (by omega), List.getElem?_drop]
      congr 1
      omega
  · rw [List.length_append, hlen]
    omega
  · rw [List.length_append, hlen]

theorem Job.end_le {idx : Nat} (h : idx < j.pieces) :
    idx * pieceLen + pieceSize j.total idx ≤ j.total := by
  have hlt := Bitmap.mul_pieceLen_lt h
  rw [pieceSize]
  omega

namespace Disk

/-- Durable bytes are those of the target. -/
structure Sound (d : Disk) : Prop where
  stable : ∀ p v, d.stable p = some v → d.file[p]? = some v
  size : d.file.length ∈ d.sizes

/-- The bytes of a piece are in the target. -/
def Has (j : Job) (d : Disk) (idx : Nat) : Prop :=
  ∀ p, j.InPiece idx p → d.file[p]? = j.content[p]?

/-- **Growth**: what is right stays right, and what is durable and right stays so. -/
structure Grows (j : Job) (d d' : Disk) : Prop where
  sound : d'.Sound
  ctrl : d'.ctrl = d.ctrl
  good : ∀ (p : Nat) (v : UInt8), j.content[p]? = some v → d.file[p]? = some v →
    d'.file[p]? = some v
  firm : ∀ (p : Nat) (v : UInt8), j.content[p]? = some v → d.stable p = some v →
    d'.stable p = some v
  length : d.file.length = j.total → d'.file.length = j.total

variable {d : Disk} {idx : Nat}

theorem Keeps.has (h : d.Keeps j idx) (hsound : d.Sound) : d.Has j idx := by
  intro p hp
  obtain ⟨v, hv⟩ := Job.content_eq_some hp.lt_total
  rw [hv]
  exact hsound.stable p v ((h p hp).trans hv)

theorem Has.grow {d' : Disk} (h : d.Has j idx) (hg : d.Grows j d') : d'.Has j idx := by
  intro p hp
  obtain ⟨v, hv⟩ := Job.content_eq_some hp.lt_total
  rw [hv]
  exact hg.good p v hv ((h p hp).trans hv)

theorem Keeps.grow {d' : Disk} (h : d.Keeps j idx) (hg : d.Grows j d') : d'.Keeps j idx := by
  intro p hp
  obtain ⟨v, hv⟩ := Job.content_eq_some hp.lt_total
  rw [hv]
  exact hg.firm p v hv ((h p hp).trans hv)

theorem sound_atRest (file : List UInt8) (ctrl : Option Content) : (atRest file ctrl).Sound where
  stable := fun _ _ h => h
  size := List.mem_singleton.mpr rfl

theorem length_setLen (d : Disk) (n : Nat) : (d.setLen n).file.length = n := by
  rw [setLen, List.length_append, List.length_take, List.length_replicate]
  omega

theorem Sound.setLen (h : d.Sound) (n : Nat) : (d.setLen n).Sound where
  stable := by
    intro p v hp
    by_cases hlt : p < n
    · have hold : d.stable p = some v := (if_pos hlt).symm.trans hp
      have hfile := h.stable p v hold
      have hin := (List.getElem?_eq_some_iff.mp hfile).1
      show (d.file.take n ++ List.replicate (n - d.file.length) 0)[p]? = some v
      rw [List.getElem?_append_left (by rw [List.length_take]; omega), List.getElem?_take,
        if_pos hlt]
      exact hfile
    · cases (if_neg hlt).symm.trans hp
  size := by
    rw [length_setLen]
    exact List.mem_cons_self

/-! ### Writes -/

variable {data : List UInt8} {offset : Nat}

/-- A byte that is written is the right one. -/
theorem getElem?_write (h : j.Part offset data) {p : Nat} (hlo : offset ≤ p)
    (hhi : p < offset + data.length) : (d.write offset data).file[p]? = j.content[p]? := by
  have hbyte := h.agrees (p - offset) (by omega)
  rw [Nat.add_sub_cancel' hlo] at hbyte
  exact (ByteFile.getElem?_writeAt_of_mem hlo hhi).trans hbyte

theorem getElem?_write_of_not_mem {p : Nat} {v : UInt8}
    (hout : ¬ (offset ≤ p ∧ p < offset + data.length)) (hp : d.file[p]? = some v) :
    (d.write offset data).file[p]? = some v :=
  ByteFile.getElem?_eq_some_of_getD hp (ByteFile.length_le_writeAt _ _ _)
    (ByteFile.getD_writeAt_of_not_mem (by omega))

theorem Sound.write (h : d.Sound) :
    (d.write offset data).Sound where
  stable := by
    intro p v hp
    have hstable : d.stable p = some v ∧
        ¬ (offset ≤ p ∧ p < offset + data.length ∧ d.stable p ≠ data[p - offset]?) := by
      by_cases hcond : offset ≤ p ∧ p < offset + data.length ∧ d.stable p ≠ data[p - offset]?
      · cases (if_pos hcond).symm.trans hp
      · exact ⟨(if_neg hcond).symm.trans hp, hcond⟩
    obtain ⟨hold, hcond⟩ := hstable
    by_cases hin : offset ≤ p ∧ p < offset + data.length
    · have heq : d.stable p = data[p - offset]? :=
        Decidable.not_not.mp fun hne => hcond ⟨hin.1, hin.2, hne⟩
      rw [← hold, heq]
      exact ByteFile.getElem?_writeAt_of_mem hin.1 hin.2
    · exact getElem?_write_of_not_mem hin (h.stable p v hold)
  size := List.mem_cons_self

theorem length_write (h : j.Part offset data) (hlen : d.file.length = j.total) :
    (d.write offset data).file.length = j.total := by
  show (ByteFile.writeAt 0 d.file offset data).length = j.total
  by_cases hnil : data = []
  · rw [hnil, ByteFile.writeAt_nil]
    exact hlen
  · have hfits := h.fits
    rw [ByteFile.length_writeAt hnil, hlen]
    omega

/-- **A write** of the right bytes. -/
theorem grows_write (hsound : d.Sound) (h : j.Part offset data) :
    d.Grows j (d.write offset data) where
  sound := hsound.write
  ctrl := rfl
  good := by
    intro p v hv hp
    by_cases hin : offset ≤ p ∧ p < offset + data.length
    · exact (getElem?_write h hin.1 hin.2).trans hv
    · exact getElem?_write_of_not_mem hin hp
  firm := by
    intro p v hv hp
    refine (if_neg ?_).trans hp
    rintro ⟨hlo, hhi, hne⟩
    have hbyte := h.agrees (p - offset) (by omega)
    rw [Nat.add_sub_cancel' hlo] at hbyte
    exact hne (hp.trans (hbyte.trans hv).symm)
  length := length_write h

/-! ### `fsync` -/

theorem stable_sync (d : Disk) (data : List UInt8) (p : Nat) :
    (d.sync data).stable p =
      if d.file[p]?.isSome ∧ data[p]? = d.file[p]? then d.file[p]? else d.stable p := rfl

/-- **An `fsync`** takes nothing away. -/
theorem grows_sync (h : d.Sound) (data : List UInt8) : d.Grows j (d.sync data) where
  sound := {
    stable := by
      intro p v hp
      rw [stable_sync] at hp
      split at hp
      · exact hp
      · exact h.stable p v hp
    size := by
      show d.file.length ∈ if data.length = d.file.length then [d.file.length] else d.sizes
      split
      · exact List.mem_singleton.mpr rfl
      · exact h.size }
  ctrl := rfl
  good := fun _ _ _ hp => hp
  firm := by
    intro p v _ hp
    rw [stable_sync]
    split
    · exact h.stable p v hp
    · exact hp
  length := fun hlen => hlen

/-- What was in the target when the `fsync` began, and is right, is durable. -/
theorem keeps_sync (h : d.Has j idx) (hdata : ∀ p, j.InPiece idx p → data[p]? = j.content[p]?) :
    (d.sync data).Keeps j idx := by
  intro p hp
  obtain ⟨v, hv⟩ := Job.content_eq_some hp.lt_total
  have hfile := h p hp
  rw [stable_sync, if_pos]
  · exact hfile
  · rw [hdata p hp, hfile, hv]
    exact ⟨rfl, rfl⟩

end Disk

/-- When all pieces are in a target of the right length, it is the remote file. -/
theorem file_eq {d : Disk} (hlen : d.file.length = j.total)
    (hall : ∀ idx < j.pieces, d.Has j idx) : d.file = j.content := by
  refine List.ext_getElem? fun p => ?_
  by_cases hp : p < j.total
  · have hpiece : p / pieceLen < j.pieces := by
      have hle := Bitmap.piecesOf_mul_pieceLen j.total
      rw [Job.pieces]
      exact (Nat.div_lt_iff_lt_mul (by decide)).mpr (by omega)
    refine hall (p / pieceLen) hpiece p ⟨Nat.div_mul_le_self p pieceLen, ?_⟩
    have hmod : p % pieceLen < pieceLen := Nat.mod_lt p (by decide)
    have hsplit := Nat.div_add_mod' p pieceLen
    rw [pieceSize]
    omega
  · rw [List.getElem?_eq_none (by omega), List.getElem?_eq_none (Nat.le_of_not_lt hp)]

end XferRust.Sftp.Download
