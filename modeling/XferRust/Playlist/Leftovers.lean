import Mathlib.Algebra.BigOperators.Group.Finset.Basic
import Mathlib.Algebra.BigOperators.Intervals
import XferRust.Lib.ByteFile
import XferRust.Playlist.Control

/-! # What a download finds on the disk

A download leaves three things: the product, the control file, and in the unordered mode a
directory with a file for each segment that is not yet in the product.  A later one reads them
twice: before it is started, for the progress that is shown first (`resumePoint`), and when it
starts, in one of two modes.

The first reading goes by the mode in the control file and the second by the mode chosen now.
They agree unless one mode finds what the other one left, or the ordered mode finds a part of a
segment that it cannot go on with (`resumePoint_iff`).

Lengths are natural numbers: a sum of lengths that saturates as a word is longer than any file.
-/
namespace XferRust.Playlist

/-- The segments to load, the initialisation segment first (`all`). -/
def PlaylistPlan.all (plan : PlaylistPlan) : List Segment := plan.init.toList ++ plan.segments

theorem PlaylistPlan.length_all (plan : PlaylistPlan) : plan.all.length = plan.segmentCount := by
  rw [all, List.length_append, segmentCount, Nat.add_comm]

structure PlaylistDisk where
  product : Option (List UInt8) := none
  /-- `seg_file`, by the number of the segment. -/
  segFiles : Nat → Option (List UInt8) := fun _ => none
  ctrl : Option PlaylistCtrl := none

/-- The length of a file, 0 for none (`metadata`). -/
def fileLen (file : Option (List UInt8)) : Nat := (file.getD []).length

/-- `set_len`. -/
def setLen (file : List UInt8) (n : Nat) : List UInt8 :=
  file.take n ++ List.replicate (n - file.length) 0

theorem length_setLen (file : List UInt8) (n : Nat) : (setLen file n).length = n := by
  rw [setLen, List.length_append, List.length_take, List.length_replicate]
  omega

/-- `is_unordered_ctrl`. -/
def PlaylistCtrl.isUnordered (c : PlaylistCtrl) : Bool := c.mode = "unordered"

/-- `spilled_bytes`. -/
def spilledBytes (segFiles : Nat → Option (List UInt8)) (n : Nat) : Nat :=
  (List.range n).foldl (fun total i => total + fileLen (segFiles i)) 0

theorem spilledBytes_eq (segFiles : Nat → Option (List UInt8)) (n : Nat) :
    spilledBytes segFiles n = ∑ i ∈ Finset.range n, fileLen (segFiles i) := by
  induction n with
  | zero => rfl
  | succ n ih =>
    rw [Finset.sum_range_succ, ← ih, spilledBytes, List.range_succ, List.foldl_append]
    rfl

/-! ## The two readings of a control file -/

/-- `ResumeState`. -/
structure ResumeState where
  prefixBytes : Nat := 0
  written : Nat := 0
  part : Nat := 0

/-- `resume_state` behind `load_ctrl`: what the ordered mode takes up. -/
def resumeState (disk : PlaylistDisk) (segmentCount : Nat) : Option PlaylistCtrl → ResumeState
  | none => {}
  | some c =>
    if c.isUnordered ∨ c.written > segmentCount then {}
    else
      match disk.product with
      | none => {}
      | some file =>
        if file.length ≥ c.bytes + c.part then
          { prefixBytes := c.bytes, written := c.written, part := c.part }
        else if file.length ≥ c.bytes then { prefixBytes := c.bytes, written := c.written }
        else {}

/-- What the unordered mode takes up: the bytes and the segments of the product, and the segments
that are complete in files of their own. -/
structure UnorderedResume where
  spliced : Nat := 0
  written : Nat := 0
  done : List Bool

/-- `unordered_resume`. -/
def unorderedResume (disk : PlaylistDisk) (n : Nat) (c : PlaylistCtrl) : UnorderedResume :=
  let done := (List.range n).map fun i => c.mask[i]?.getD false && (disk.segFiles i).isSome
  let spliced := if fileLen disk.product ≥ c.bytes then c.bytes else 0
  { spliced, written := if spliced = 0 then 0 else min c.written n, done }

section

variable (digest : List UInt8 → String) (parse : String → Option Address)

/-- `resume_point`: the bytes and the segments that are there. -/
def resumePoint (disk : PlaylistDisk) (plan : PlaylistPlan) : Nat × Nat :=
  let c := loadCtrl digest parse disk.ctrl plan
  match c.filter PlaylistCtrl.isUnordered with
  | some c =>
    let n := plan.segmentCount
    let r := unorderedResume disk n c
    (r.spliced + spilledBytes disk.segFiles n, r.written)
  | none =>
    let st := resumeState disk plan.segmentCount c
    (st.prefixBytes + st.part, st.written)

/-! ## The start of a download -/

/-- The counters that the progress is made of. -/
structure PlaylistStats where
  completed : Nat := 0
  spilled : Nat := 0
  cursor : Nat := 0
  cursorCounted : Bool := true
  unordered : Bool := false
  slots : List Nat := []

/-- `progress`. -/
def PlaylistStats.progress (stats : PlaylistStats) : Nat :=
  let done := stats.completed + stats.spilled
  if stats.unordered then done
  else if ¬ stats.cursorCounted then done
  else done + stats.slots[stats.cursor]?.getD 0

/-- A download that is started. -/
structure Start where
  stats : PlaylistStats
  /-- The segments that count as written. -/
  written : Nat
  /-- The product, open behind its last byte. -/
  product : List UInt8
  segFiles : Nat → Option (List UInt8)
  /-- Unordered: the segments that are complete. -/
  done : List Bool := []
  /-- Ordered: where the next segment goes on. -/
  pendingResume : Nat := 0

/-- Opens the product at its first `n` bytes. -/
def openProduct (disk : PlaylistDisk) (n : Nat) : List UInt8 :=
  if n > 0 then setLen (disk.product.getD []) n else []

/-- The start of `download_playlist_unordered`. -/
def startUnordered (disk : PlaylistDisk) (plan : PlaylistPlan) : Start :=
  let n := plan.all.length
  -- another list, or another mode: the directory is removed
  match (loadCtrl digest parse disk.ctrl plan).filter PlaylistCtrl.isUnordered with
  | some c =>
    let r := unorderedResume disk n c
    { stats :=
        { completed := r.spliced, spilled := spilledBytes disk.segFiles n, unordered := true }
      written := r.written
      product := openProduct disk r.spliced
      segFiles := disk.segFiles
      done := r.done }
  | none =>
    let segFiles := fun _ => none
    { stats := { completed := 0, spilled := spilledBytes segFiles n, unordered := true }
      written := 0
      product := openProduct disk 0
      segFiles
      done := List.replicate n false }

/-- The next segment can be gone on with from its middle: it has no key. -/
def PlaylistPlan.plainAt (plan : PlaylistPlan) (i : Nat) : Bool :=
  plan.all[i]?.any fun seg => seg.key = none

/-- The start of `download_playlist_ordered`. -/
def startOrdered (disk : PlaylistDisk) (plan : PlaylistPlan) : Start :=
  let st := resumeState disk plan.segmentCount (loadCtrl digest parse disk.ctrl plan)
  let written := min st.written plan.all.length
  let pendingResume := if plan.plainAt written then st.part else 0
  let haveBytes := st.prefixBytes + pendingResume
  { stats :=
      { completed := haveBytes, cursor := written
        cursorCounted := plan.all[written]?.all fun seg => seg.key = none }
    written
    product := openProduct disk haveBytes
    segFiles := disk.segFiles
    pendingResume }

/-- `download_playlist` up to its loop. -/
def start (orderedWrite : Bool) (disk : PlaylistDisk) (plan : PlaylistPlan) : Start :=
  if orderedWrite then startOrdered digest parse disk plan
  else startUnordered digest parse disk plan

end

/-! ## When they agree -/

namespace PlaylistCtrl

/-- The product holds what an ordered control file counts. -/
def Fits (c : PlaylistCtrl) (disk : PlaylistDisk) (n : Nat) : Prop :=
  c.written ≤ n ∧ disk.product.isSome ∧ c.bytes ≤ fileLen disk.product

instance (c : PlaylistCtrl) (disk : PlaylistDisk) (n : Nat) : Decidable (c.Fits disk n) :=
  inferInstanceAs (Decidable (_ ∧ _))

/-- And the part behind it. -/
def PartFits (c : PlaylistCtrl) (disk : PlaylistDisk) : Prop :=
  c.bytes + c.part ≤ fileLen disk.product

instance (c : PlaylistCtrl) (disk : PlaylistDisk) : Decidable (c.PartFits disk) :=
  inferInstanceAs (Decidable (_ ≤ _))

end PlaylistCtrl

theorem resumeState_some {c : PlaylistCtrl} {disk : PlaylistDisk} {n : Nat}
    (hc : c.isUnordered = false) :
    resumeState disk n (some c) =
      if c.Fits disk n then
        { prefixBytes := c.bytes, written := c.written,
          part := if c.PartFits disk then c.part else 0 }
      else {} := by
  rw [resumeState, hc]
  by_cases hw : c.written ≤ n
  · rw [if_neg (by simp; omega)]
    cases hp : disk.product with
    | none => exact (if_neg fun h => by simp [PlaylistCtrl.Fits, hp] at h).symm
    | some file =>
      have hlen : fileLen disk.product = file.length := by rw [hp]; rfl
      by_cases hb : c.bytes ≤ file.length
      · have hfits : c.Fits disk n := ⟨hw, by rw [hp]; rfl, by rwa [hlen]⟩
        have hpart : c.PartFits disk ↔ file.length ≥ c.bytes + c.part := by
          rw [PlaylistCtrl.PartFits, hlen]
        rw [if_pos hfits]
        by_cases hle : file.length ≥ c.bytes + c.part
        · rw [if_pos (hpart.mpr hle)]
          exact if_pos hle
        · rw [if_neg fun h => hle (hpart.mp h)]
          exact (if_neg hle).trans (if_pos hb)
      · have hfits : ¬ c.Fits disk n := fun h => hb (hlen ▸ h.2.2)
        rw [if_neg hfits]
        dsimp only
        rw [if_neg (by omega), if_neg hb]
  · rw [if_pos (Or.inr (by omega)), if_neg fun h => hw h.1]

/-- **What was left behind is left for the mode that is chosen now**: a control file that is
accepted is of that mode or counts nothing that is there, and a part of a segment that the ordered
mode finds belongs to one without a key. -/
def Continues (digest : List UInt8 → String) (parse : String → Option Address)
    (orderedWrite : Bool) (disk : PlaylistDisk) (plan : PlaylistPlan) : Prop :=
  ∀ c, loadCtrl digest parse disk.ctrl plan = some c →
    match c.isUnordered, orderedWrite with
    | true, false => True
    | true, true => (c.bytes = 0 ∨ fileLen disk.product < c.bytes) ∧
        ∀ i < plan.segmentCount, fileLen (disk.segFiles i) = 0
    | false, true => c.Fits disk plan.segmentCount → c.PartFits disk →
        c.part = 0 ∨ plan.plainAt c.written = true
    | false, false => c.Fits disk plan.segmentCount →
        c.bytes = 0 ∧ c.written = 0 ∧ (c.PartFits disk → c.part = 0)

section

variable {digest : List UInt8 → String} {parse : String → Option Address} {disk : PlaylistDisk}
  {plan : PlaylistPlan}

theorem spilledBytes_none (n : Nat) : spilledBytes (fun _ => none) n = 0 := by
  rw [spilledBytes_eq]
  exact Finset.sum_eq_zero fun i _ => rfl

theorem spilledBytes_eq_zero {segFiles : Nat → Option (List UInt8)} {n : Nat} :
    spilledBytes segFiles n = 0 ↔ ∀ i < n, fileLen (segFiles i) = 0 := by
  rw [spilledBytes_eq, Finset.sum_eq_zero_iff]
  exact ⟨fun h i hi => h i (Finset.mem_range.mpr hi), fun h i hi => h i (Finset.mem_range.mp hi)⟩

/-- The ordered mode starts with what `resume_state` says, less a part that it cannot use. -/
theorem startOrdered_eq :
    let st := resumeState disk plan.segmentCount (loadCtrl digest parse disk.ctrl plan)
    ((startOrdered digest parse disk plan).stats.progress,
        (startOrdered digest parse disk plan).written) =
      (st.prefixBytes + (if plan.plainAt st.written then st.part else 0), st.written) := by
  have hle : (resumeState disk plan.segmentCount (loadCtrl digest parse disk.ctrl plan)).written ≤
      plan.all.length := by
    rw [plan.length_all]
    cases hc : loadCtrl digest parse disk.ctrl plan with
    | none => exact Nat.zero_le _
    | some c =>
      cases hu : c.isUnordered with
      | true =>
        rw [resumeState, hu, if_pos (Or.inl rfl)]
        exact Nat.zero_le _
      | false =>
        rw [resumeState_some hu]
        split
        · rename_i hfits
          exact hfits.1
        · exact Nat.zero_le _
  simp only [startOrdered, PlaylistStats.progress, Nat.min_eq_left hle]
  refine Prod.ext ?_ rfl
  simp

theorem resumePoint_unordered {c : PlaylistCtrl}
    (hc : (loadCtrl digest parse disk.ctrl plan).filter PlaylistCtrl.isUnordered = some c) :
    resumePoint digest parse disk plan =
      ((unorderedResume disk plan.segmentCount c).spliced +
        spilledBytes disk.segFiles plan.segmentCount,
        (unorderedResume disk plan.segmentCount c).written) := by
  simp only [resumePoint, hc]

theorem resumePoint_other
    (hc : (loadCtrl digest parse disk.ctrl plan).filter PlaylistCtrl.isUnordered = none) :
    resumePoint digest parse disk plan =
      let st := resumeState disk plan.segmentCount (loadCtrl digest parse disk.ctrl plan)
      (st.prefixBytes + st.part, st.written) := by
  simp only [resumePoint, hc]

theorem startUnordered_some {c : PlaylistCtrl}
    (hc : (loadCtrl digest parse disk.ctrl plan).filter PlaylistCtrl.isUnordered = some c) :
    ((startUnordered digest parse disk plan).stats.progress,
        (startUnordered digest parse disk plan).written) =
      ((unorderedResume disk plan.segmentCount c).spliced +
        spilledBytes disk.segFiles plan.segmentCount,
        (unorderedResume disk plan.segmentCount c).written) := by
  simp only [startUnordered, hc, plan.length_all, PlaylistStats.progress, if_true]

theorem startUnordered_none
    (hc : (loadCtrl digest parse disk.ctrl plan).filter PlaylistCtrl.isUnordered = none) :
    ((startUnordered digest parse disk plan).stats.progress,
        (startUnordered digest parse disk plan).written) = (0, 0) := by
  simp only [startUnordered, hc, PlaylistStats.progress, if_true, spilledBytes_none]

/-- The unordered mode finds nothing in the product. -/
theorem unorderedResume_eq_zero {n : Nat} {c : PlaylistCtrl} :
    ((unorderedResume disk n c).spliced = 0 ∧ (unorderedResume disk n c).written = 0) ↔
      (c.bytes = 0 ∨ fileLen disk.product < c.bytes) := by
  by_cases h : fileLen disk.product ≥ c.bytes
  · simp only [unorderedResume, if_pos h]
    constructor
    · exact fun hz => Or.inl hz.1
    · rintro (hz | hlt)
      · exact ⟨hz, if_pos hz⟩
      · omega
  · simp only [unorderedResume, if_neg h]
    exact iff_of_true ⟨trivial, if_pos trivial⟩ (Or.inr (by omega))

/-- **The progress that is shown first is the progress that the download starts with** exactly when
what was left behind is left for the mode chosen now. -/
theorem resumePoint_iff (orderedWrite : Bool) :
    resumePoint digest parse disk plan =
        ((start digest parse orderedWrite disk plan).stats.progress,
          (start digest parse orderedWrite disk plan).written) ↔
      Continues digest parse orderedWrite disk plan := by
  cases hc : loadCtrl digest parse disk.ctrl plan with
  | none =>
    have hfilter : (loadCtrl digest parse disk.ctrl plan).filter PlaylistCtrl.isUnordered =
        none := by
      rw [hc]
      rfl
    refine iff_of_true ?_ fun c h => by rw [hc] at h; cases h
    rw [resumePoint_other hfilter, hc]
    cases orderedWrite with
    | false => exact (startUnordered_none hfilter).symm
    | true =>
      refine Eq.trans ?_ (@startOrdered_eq digest parse _ _).symm
      rw [hc]
      have hpart : ∀ b : Bool, 0 = 0 + if b = true then 0 else 0 := by decide
      exact Prod.ext (hpart (plan.plainAt 0)) rfl
  | some c =>
    have hall : Continues digest parse orderedWrite disk plan ↔ _ :=
      ⟨fun h => h c hc, fun h d hd => Option.some.inj (hc.symm.trans hd) ▸ h⟩
    rw [hall]
    cases hu : c.isUnordered with
    | true =>
      have hfilter : (loadCtrl digest parse disk.ctrl plan).filter PlaylistCtrl.isUnordered =
          some c := by
        rw [hc]
        exact Option.filter_some_pos hu
      rw [resumePoint_unordered hfilter]
      cases orderedWrite with
      | false => exact iff_of_true (startUnordered_some hfilter).symm trivial
      | true =>
        have hstart : ((startOrdered digest parse disk plan).stats.progress,
            (startOrdered digest parse disk plan).written) = (0, 0) := by
          refine startOrdered_eq.trans ?_
          simp only [hc, resumeState, hu, true_or, if_true, ite_self, Nat.add_zero]
        rw [start, if_pos rfl, hstart, Prod.mk.injEq, Nat.add_eq_zero_iff, and_right_comm,
          unorderedResume_eq_zero, spilledBytes_eq_zero]
    | false =>
      have hfilter : (loadCtrl digest parse disk.ctrl plan).filter PlaylistCtrl.isUnordered =
        none := by
        rw [hc]
        exact Option.filter_some_neg (by rw [hu])
      rw [resumePoint_other hfilter]
      cases orderedWrite with
      | false =>
        rw [start, if_neg Bool.false_ne_true, startUnordered_none hfilter, hc, resumeState_some hu]
        show _ ↔ (c.Fits disk plan.segmentCount →
          c.bytes = 0 ∧ c.written = 0 ∧ (c.PartFits disk → c.part = 0))
        by_cases hfits : c.Fits disk plan.segmentCount
        · rw [if_pos hfits, forall_prop_of_true hfits]
          by_cases hpart : c.PartFits disk
          · rw [if_pos hpart, forall_prop_of_true hpart, Prod.mk.injEq, Nat.add_eq_zero_iff]
            exact and_right_comm.trans and_assoc
          · rw [if_neg hpart, Prod.mk.injEq, Nat.add_zero]
            exact and_congr_right fun _ => (and_iff_left fun h => absurd h hpart).symm
        · rw [if_neg hfits]
          exact iff_of_true rfl fun h => absurd h hfits
      | true =>
        rw [start, if_pos rfl, startOrdered_eq, hc, resumeState_some hu]
        show _ ↔ (c.Fits disk plan.segmentCount → c.PartFits disk →
          c.part = 0 ∨ plan.plainAt c.written = true)
        by_cases hfits : c.Fits disk plan.segmentCount
        · rw [if_pos hfits, forall_prop_of_true hfits]
          by_cases hpart : c.PartFits disk
          · rw [if_pos hpart, forall_prop_of_true hpart, Prod.mk.injEq, and_iff_left rfl,
              Nat.add_left_cancel_iff]
            cases plan.plainAt c.written with
            | true => simp
            | false => simp
          · rw [if_neg hpart, ite_self]
            exact iff_of_true rfl fun h => absurd h hpart
        · rw [if_neg hfits, ite_self]
          exact iff_of_true rfl fun h => absurd h hfits

/-- A download in the ordered mode was paused in its first segment, and the next one is unordered:
the progress that is shown first is 4 bytes, and the directory counts for nothing. -/
theorem mode_changed :
    ¬ ∀ (disk : PlaylistDisk) (plan : PlaylistPlan) (orderedWrite : Bool),
      resumePoint spelled parseBare disk plan =
        ((start spelled parseBare orderedWrite disk plan).stats.progress,
          (start spelled parseBare orderedWrite disk plan).written) := by
  intro h
  have h := h
    { product := some [1, 2, 3, 4]
      ctrl := some (ctrlOf spelled parseBare (oneRange "h" "a" 0 188) 0 0 4 "" []) }
    (oneRange "h" "a" 0 188) false
  exact absurd h (by decide)

end

end XferRust.Playlist
