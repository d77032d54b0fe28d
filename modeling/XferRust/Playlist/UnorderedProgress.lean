import XferRust.Lib.StepRun
import XferRust.Playlist.Unordered

/-! # The progress of an unordered download is what is on the disk

Two counters make up the progress: the bytes of the product, and the bytes in the files of segments
that are not in it yet.  They are changed one by one, wherever a file grows, is emptied, written
anew or spliced, and they stay right as long as each change says what really happens to the file
(`balanced_of_run`).  Four changes do not: what lies in the file of a segment that is spliced
already is counted at the start; a segment that was spliced can be loaded once more; a chunk behind
a reset is written where the file used to end; and the plain text of a segment with a key replaces
what an earlier run has left in its file.
-/
namespace XferRust.Playlist

open StepRun

/-- The file behind what a load does to it. -/
def FileEffect.file (effect : FileEffect) (file : Option (List UInt8)) : Option (List UInt8) :=
  effect.bytes.or file

namespace Fetch

/-- The counts of a load are right for the file of its segment; `plain`: the segment has no key. -/
def Holds (f : Fetch) (plain : Bool) (file : Option (List UInt8)) : Prop :=
  match f.target with
  | .disk h => plain = true ∧ h.written = fileLen file ∧
      ∀ b, f.state = .ended (.ok b) → b.onDisk = h.written ∧ b.data = []
  | .mem _ => plain = false ∧ ∀ b, f.state = .ended (.ok b) → b.onDisk = 0

/-- The next byte goes to the end of the file. -/
def inPlace (f : Fetch) : Bool :=
  match f.target with
  | .disk h => h.pos = h.written
  | .mem _ => true

variable {retries : Nat} {decrypt : SegmentKey → List UInt8 → Option (List UInt8)} {seg : Segment}
  {f f' : Fetch} {plain : Bool} {file : Option (List UInt8)}

/-- A load that has not ended with a segment: only the handle counts. -/
theorem Holds.of_target {g : Fetch} (h : f.Holds plain file) (ht : g.target = f.target)
    (hs : ∀ b, g.state ≠ .ended (.ok b)) : g.Holds plain file := by
  rw [Holds, ht]
  rw [Holds] at h
  cases hf : f.target with
  | disk d =>
    rw [hf] at h
    exact ⟨h.1, h.2.1, fun b hb => absurd hb (hs b)⟩
  | mem buf =>
    rw [hf] at h
    exact ⟨h.1, fun b hb => absurd hb (hs b)⟩

theorem failed_target (f : Fetch) (e : FetchError) : (f.failed retries e).target = f.target := by
  rw [failed]
  split
  · rfl
  · rfl

theorem failed_state (f : Fetch) (e : FetchError) (b : SegBody) :
    (f.failed retries e).state ≠ .ended (.ok b) := by
  rw [failed]
  split
  · intro h
    cases h
  · intro h
    cases h

theorem Holds.failed (h : f.Holds plain file) (e : FetchError) :
    (f.failed retries e).Holds plain file :=
  h.of_target (failed_target f e) (failed_state f e)

theorem length_append {h : SegFile} {bytes data : List UInt8} (hpos : h.pos = bytes.length) :
    (h.append bytes data).1.length = bytes.length + data.length := by
  by_cases hd : data = []
  · rw [SegFile.append, hd, ByteFile.writeAt_nil]
    rfl
  · rw [SegFile.append, ByteFile.length_writeAt hd, hpos]
    omega

theorem Holds.begin (h : f.Holds plain file) : f.begin.Holds plain file := by
  obtain ⟨target, resumeFrom, attempt, state⟩ := f
  cases target with
  | disk d => exact ⟨h.1, h.2.1, fun b hb => by cases hb⟩
  | mem buf => exact ⟨h.1, fun b hb => by cases hb⟩

theorem Holds.finish {whole : Bool} (h : f.Holds plain file) (hseg : plain = true → seg.key = none) :
    (f.finish retries decrypt seg whole).Holds plain file := by
  obtain ⟨target, resumeFrom, attempt, state⟩ := f
  cases target with
  | disk d =>
    simp only [Fetch.finish, hseg h.1]
    split
    · exact ⟨h.1, h.2.1, fun b hb => by cases hb; exact ⟨rfl, rfl⟩⟩
    · exact Holds.failed h _
  | mem buf =>
    have hmem : ∀ st, ({ target := .mem [], resumeFrom, attempt, state := st } : Fetch).Holds plain
        file ↔ plain = false ∧ ∀ b, st = .ended (.ok b) → b.onDisk = 0 := fun st => Iff.rfl
    simp only [Fetch.finish]
    split
    · cases seg.key with
      | none => exact (hmem _).mpr ⟨h.1, fun b hb => by cases hb; rfl⟩
      | some k =>
        dsimp only
        cases decrypt k buf with
        | none => exact ((hmem state).mpr h).failed _
        | some d => exact (hmem _).mpr ⟨h.1, fun b hb => by cases hb; rfl⟩
    · exact ((hmem state).mpr h).failed _

/-- The counts of a load stay right, and the length of the file changes by what is counted. -/
def Kept (plain : Bool) (file : Option (List UInt8)) (r : Fetch × FileEffect) : Prop :=
  r.1.Holds plain (r.2.file file) ∧
    fileLen (r.2.file file) + r.2.lost = fileLen file + r.2.gained

theorem Holds.kept (h : f.Holds plain file) : Kept plain file (f, {}) := ⟨h, rfl⟩

theorem Holds.answer (h : f.Holds plain file) (ranged : Bool) :
    Kept plain file (f.answer ranged) := by
  obtain ⟨target, resumeFrom, attempt, state⟩ := f
  have hto : ∀ w, ({ target, resumeFrom, attempt, state := .reading w } : Fetch).Holds plain file :=
    fun w => h.of_target rfl fun b hb => by cases hb
  simp only [Fetch.answer]
  cases hw : decide (resumeFrom > 0) && !ranged with
  | false => exact (hto false).kept
  | true =>
    cases target with
    | mem buf => exact (hto true).kept
    | disk d =>
      refine ⟨⟨h.1, rfl, fun b hb => by cases hb⟩, ?_⟩
      show 0 + d.written = fileLen file + 0
      rw [h.2.1, Nat.zero_add, Nat.add_zero]

theorem Holds.chunk (h : f.Holds plain file) (hplace : f.inPlace = true) (data : List UInt8)
    (hs : ∀ b, f.state ≠ .ended (.ok b)) : Kept plain file (f.chunk (file.getD []) data) := by
  obtain ⟨target, resumeFrom, attempt, state⟩ := f
  cases target with
  | mem buf => exact Holds.kept ⟨h.1, fun b hb => absurd hb (hs b)⟩
  | disk d =>
    have hpos : d.pos = (file.getD []).length := (of_decide_eq_true hplace).trans h.2.1
    have hlen := @length_append d (file.getD []) data hpos
    refine ⟨⟨h.1, ?_, fun b hb => absurd hb (hs b)⟩, ?_⟩
    · show d.written + data.length = (d.append (file.getD []) data).1.length
      rw [hlen, h.2.1]
      rfl
    · show (d.append (file.getD []) data).1.length + 0 = fileLen file + data.length
      rw [hlen]
      rfl

/-- **One step of a load keeps its counts right**, and says how the length of the file changes, if
a chunk goes to the end of the file. -/
theorem Holds.step {cancelled : Bool} {e : FetchEvent} {effect : FileEffect}
    (h : f.Holds plain file) (hseg : plain = true → seg.key = none)
    (hchunk : ∀ data, e = .chunk data → f.inPlace = true)
    (hstep : f.step retries decrypt seg cancelled (file.getD []) e = some (f', effect))
    (htorn : effect.torn = false) : Kept plain file (f', effect) := by
  cases e with
  | begin =>
    simp only [Fetch.step] at hstep
    split at hstep
    · split at hstep
      · cases hstep
      · exact Option.some.inj hstep ▸ h.begin.kept
    · cases hstep
  | answer ranged =>
    simp only [Fetch.step] at hstep
    split at hstep
    · exact Option.some.inj hstep ▸ h.answer ranged
    · cases hstep
  | chunk data =>
    simp only [Fetch.step] at hstep
    split at hstep
    · rename_i hs
      split at hstep
      · cases hstep
      · refine Option.some.inj hstep ▸ h.chunk (hchunk data rfl) data fun b hb => ?_
        rw [hs] at hb
        cases hb
    · cases hstep
  | chunkTorn data n =>
    simp only [Fetch.step] at hstep
    split at hstep
    · rename_i d hs hd
      split at hstep
      · obtain ⟨rfl, rfl⟩ := Prod.mk.inj (Option.some.inj hstep)
        -- nothing of the chunk was written
        have hn : n = 0 := by simpa using htorn
        subst hn
        have hbytes : (d.append (file.getD []) (data.take 0)).1 = file.getD [] := by
          rw [List.take_zero, SegFile.append, ByteFile.writeAt_nil]
        have hlen : fileLen (some (file.getD [])) = fileLen file := rfl
        rw [hbytes]
        refine ⟨?_, by rw [FileEffect.file, Option.some_or, hlen]⟩
        rw [Holds, hd] at h
        rw [Holds, hd]
        exact ⟨h.1, h.2.1, fun b hb => by cases hb⟩
      · cases hstep
    · cases hstep
  | finish =>
    simp only [Fetch.step] at hstep
    split at hstep
    · exact Option.some.inj hstep ▸ (h.finish hseg).kept
    · cases hstep
  | fail err =>
    simp only [Fetch.step] at hstep
    split at hstep
    · cases hstep
    · split at hstep
      · cases hstep
      · exact Option.some.inj hstep ▸ (h.failed err).kept

/-- The load has brought its segment. -/
def brought (f : Fetch) : Bool :=
  match f.state with
  | .ended (.ok _) => true
  | _ => false

end Fetch

/-- One file changes. -/
theorem sum_fileLen_update {files : Nat → Option (List UInt8)} {a n i : Nat}
    {file : Option (List UInt8)} (hlo : a ≤ i) (hhi : i < n) :
    ∑ j ∈ Finset.Ico a n, fileLen (Function.update files i file j) + fileLen (files i) =
      ∑ j ∈ Finset.Ico a n, fileLen (files j) + fileLen file := by
  have hmem : i ∈ Finset.Ico a n := Finset.mem_Ico.mpr ⟨hlo, hhi⟩
  have hrest : ∑ j ∈ (Finset.Ico a n).erase i, fileLen (Function.update files i file j) =
      ∑ j ∈ (Finset.Ico a n).erase i, fileLen (files j) :=
    Finset.sum_congr rfl fun j hj => by rw [Function.update_of_ne (Finset.ne_of_mem_erase hj)]
  rw [← Finset.add_sum_erase _ _ hmem, ← Finset.add_sum_erase (Finset.Ico a n) (fun j => fileLen (files j)) hmem,
    hrest, Function.update_self]
  omega

namespace Unordered

/-- The bytes in the files of segments that are not in the product. -/
def unspliced (s : Unordered) : Nat := ∑ i ∈ Finset.Ico s.written s.count, fileLen (s.segFiles i)

/-- **The progress is what is on the disk**, unless a write is half done, and a download that has
succeeded shows the length of its product. -/
def Balanced (s : Unordered) : Prop :=
  s.torn = false →
    s.stats.completed + s.stats.spilled = s.product.length + s.unspliced ∧
      (s.phase = .closed none → s.stats.progress = s.product.length)

/-- Each counter is right. -/
structure Accounted (s : Unordered) : Prop where
  unordered : s.stats.unordered = true
  completed : s.stats.completed = s.product.length
  spilled : s.stats.spilled = s.unspliced
  length : s.done.length = s.count
  written_le : s.written ≤ s.count
  /-- The loads are of segments that are neither spliced nor complete. -/
  flight : ∀ i f, s.fetches i = some f → s.written ≤ i ∧ i < s.count ∧ s.isDone i = false ∧
    f.Holds (s.plan.plainAt i) (s.segFiles i)
  closed : s.phase = .closed none → s.written = s.count

theorem Accounted.balanced {s : Unordered} (h : s.Accounted) : s.Balanced := by
  intro _
  refine ⟨by rw [h.completed, h.spilled], fun hc => ?_⟩
  have hzero : s.unspliced = 0 := by
    rw [unspliced, h.closed hc, Finset.Ico_self, Finset.sum_empty]
  simp only [PlaylistStats.progress, h.unordered, if_true, h.completed, h.spilled, hzero,
    Nat.add_zero]

/-- Nothing changes that is counted. -/
theorem Accounted.frame {s t : Unordered} (h : s.Accounted) (hplan : t.plan = s.plan)
    (hproduct : t.product = s.product) (hfiles : t.segFiles = s.segFiles)
    (hstats : t.stats = s.stats) (hdone : t.done = s.done) (hwritten : t.written = s.written)
    (hflight : ∀ i f, t.fetches i = some f → s.fetches i = some f)
    (hclosed : t.phase = .closed none → t.written = t.count) : t.Accounted where
  unordered := by rw [hstats, h.unordered]
  completed := by rw [hstats, hproduct, h.completed]
  spilled := by rw [hstats, h.spilled, unspliced, unspliced, count, count, hplan, hfiles, hwritten]
  length := by rw [hdone, h.length, count, count, hplan]
  written_le := by
    rw [hwritten, count, hplan]
    exact h.written_le
  flight := by
    intro i f hf
    obtain ⟨hlo, hhi, hd, hh⟩ := h.flight i f (hflight i f hf)
    refine ⟨by rw [hwritten]; exact hlo, by rw [count, hplan]; exact hhi, ?_, ?_⟩
    · rw [isDone, hdone]
      exact hd
    · rw [hplan, hfiles]
      exact hh
  closed := hclosed

/-- **What a step may do**: no segment that is spliced is loaded again, a chunk goes to the end of
its file, and the file of a segment with a key is empty when its plain text comes. -/
def Sound (s : Unordered) : UnorderedEvent → Prop
  | .dispatch true => s.isDone s.nextSpawn = false → s.written ≤ s.nextSpawn
  | .fetch i (.chunk _) => ∀ f ∈ s.fetches i, f.inPlace = true
  | .join i _ _ => ∀ f ∈ s.fetches i, f.brought = true → s.plan.plainAt i = false →
      fileLen (s.segFiles i) = 0
  | _ => True

instance decidableSound (s : Unordered) (e : UnorderedEvent) : Decidable (s.Sound e) := by
  cases e with
  | dispatch opened =>
    cases opened with
    | true => exact inferInstanceAs (Decidable (_ → _ ≤ _))
    | false => exact instDecidableTrue
  | fetch i e =>
    cases e with
    | chunk data => exact inferInstanceAs (Decidable (∀ f ∈ s.fetches i, f.inPlace = true))
    | _ => exact instDecidableTrue
  | join i write saved =>
    exact inferInstanceAs (Decidable (∀ f ∈ s.fetches i, f.brought = true →
      s.plan.plainAt i = false → fileLen (s.segFiles i) = 0))
  | _ => exact instDecidableTrue

variable {digest : List UInt8 → String} {parse : String → Option Address}
  {decrypt : SegmentKey → List UInt8 → Option (List UInt8)} {opts : UnorderedOptions}
  {s s' : Unordered}

theorem isDone_set {i j : Nat} {b : Bool} (h : j ≠ i) (s : Unordered) :
    ((s.done.set i b)[j]?).getD false = s.isDone j := by
  rw [isDone, List.getElem?_set_ne fun heq => h heq.symm]

theorem Accounted.spliceSeg (h : s.Accounted) (hcan : s.canSplice = true) (removed : Bool)
    (hphase : s.phase ≠ .closed none) : (s.spliceSeg removed).1.Accounted := by
  rw [canSplice, Bool.and_eq_true, Bool.and_eq_true, decide_eq_true_eq] at hcan
  obtain ⟨⟨hlt, hdone⟩, -⟩ := hcan
  have hfiles : ∀ i, s.written + 1 ≤ i →
      (s.spliceSeg removed).1.segFiles i = s.segFiles i := by
    intro i hi
    cases removed with
    | false => rfl
    | true => exact Function.update_of_ne (by omega) _ _
  have hsum : s.unspliced = fileLen (s.segFiles s.written) + (s.spliceSeg removed).1.unspliced := by
    rw [unspliced, Finset.sum_eq_sum_Ico_succ_bot hlt]
    refine congrArg _ (Finset.sum_congr rfl fun i hi => ?_)
    rw [hfiles i (Finset.mem_Ico.mp hi).1]
  have hle := h.written_le
  refine ⟨h.unordered, rfl, ?_, ?_, hlt, fun i f hf => ?_, fun hc => absurd hc hphase⟩
  · show s.stats.spilled - fileLen (s.segFiles s.written) = (s.spliceSeg removed).1.unspliced
    rw [h.spilled, hsum, Nat.add_sub_cancel_left]
  · show (s.done.set s.written false).length = s.count
    rw [List.length_set, h.length]
  · obtain ⟨hlo, hhi, hd, hh⟩ := h.flight i f hf
    have hne : i ≠ s.written := by
      rintro rfl
      rw [hdone] at hd
      cases hd
    have hi : s.written + 1 ≤ i := by omega
    refine ⟨hi, hhi, (isDone_set hne s).trans hd, ?_⟩
    rw [hfiles i hi]
    exact hh

theorem Accounted.spliceTorn (h : s.Accounted) (n : Nat) (htorn : (s.spliceTorn n).torn = false)
    (hphase : s.phase ≠ .closed none) : (s.spliceTorn n).Accounted := by
  have hn : n = 0 := by
    simp only [Unordered.spliceTorn, Bool.or_eq_false_iff, decide_eq_false_iff_not] at htorn
    omega
  subst hn
  refine h.frame rfl ?_ rfl rfl rfl rfl (fun _ _ hf => hf) fun hc => absurd hc hphase
  exact (congrArg _ List.take_zero).trans (List.append_nil _)

/-- Saving the control file leaves everything that is counted. -/
theorem save_frame (s : Unordered) (saved : Option Bool) :
    ∃ ctrl failure, s.save digest parse saved = { s with ctrl, failure } := by
  cases saved with
  | none => exact ⟨s.ctrl, s.failure, rfl⟩
  | some b =>
    cases b with
    | true => exact ⟨_, s.failure, rfl⟩
    | false => exact ⟨s.ctrl, _, rfl⟩

theorem settle_frame (s : Unordered) (now : Nat) (saved : Option Bool) :
    ∃ ctrl failure phase, (∀ e, phase ≠ .closed e) ∧
      s.settle digest parse now saved = { s with ctrl, failure, phase } := by
  have hsave : ∃ ctrl failure, (if now = 0 then s else s.save digest parse saved) =
      { s with ctrl, failure } := by
    split
    · exact ⟨s.ctrl, s.failure, rfl⟩
    · exact save_frame s saved
  obtain ⟨ctrl, failure, hsave⟩ := hsave
  rw [settle]
  split
  · exact ⟨s.ctrl, s.failure, .tail, (fun e he => by cases he), rfl⟩
  · simp only [hsave]
    split
    · exact ⟨ctrl, failure, .tail, (fun e he => by cases he), rfl⟩
    · split
      · exact ⟨ctrl, failure, .splicing 0, (fun e he => by cases he), rfl⟩
      · exact ⟨ctrl, failure, .dispatching, (fun e he => by cases he), rfl⟩

theorem markDone_frame (s : Unordered) (i : Nat) (saved : Option Bool) :
    ∃ ctrl failure phase, (∀ e, phase ≠ .closed e) ∧ s.markDone digest parse i saved =
      { s with done := s.done.set i true, ctrl, failure, phase } := by
  obtain ⟨ctrl, failure, hsave⟩ := @save_frame digest parse
    { s with done := s.done.set i true, phase := .splicing 0 } saved
  rw [markDone]
  simp only [hsave]
  split
  · exact ⟨ctrl, failure, .tail, (fun e he => by cases he), rfl⟩
  · exact ⟨ctrl, failure, .splicing 0, (fun e he => by cases he), rfl⟩

theorem settle_torn (s : Unordered) (now : Nat) (saved : Option Bool) :
    (s.settle digest parse now saved).torn = s.torn := by
  obtain ⟨ctrl, failure, phase, -, heq⟩ := @settle_frame digest parse s now saved
  rw [heq]

theorem markDone_torn (s : Unordered) (i : Nat) (saved : Option Bool) :
    (s.markDone digest parse i saved).torn = s.torn := by
  obtain ⟨ctrl, failure, phase, -, heq⟩ := @markDone_frame digest parse s i saved
  rw [heq]

theorem Accounted.settle (h : s.Accounted) (now : Nat) (saved : Option Bool) :
    (s.settle digest parse now saved).Accounted := by
  obtain ⟨ctrl, failure, phase, hp, heq⟩ := @settle_frame digest parse s now saved
  rw [heq]
  exact h.frame rfl rfl rfl rfl rfl rfl (fun _ _ hf => hf) fun hc => absurd hc (hp none)

theorem Accounted.dispatch (h : s.Accounted) (opened : Bool) (hcan : s.nextSpawn < s.count)
    (hphase : s.phase ≠ .closed none)
    (hsound : opened = true → s.isDone s.nextSpawn = false → s.written ≤ s.nextSpawn) :
    (s.dispatch opened).Accounted := by
  have hframe : ∀ failure phase, phase ≠ .closed none →
      ({ s with nextSpawn := s.nextSpawn + 1, failure, phase } : Unordered).Accounted :=
    fun _ phase hp => h.frame rfl rfl rfl rfl rfl rfl (fun _ _ hf => hf) fun hc => absurd hc hp
  rw [Unordered.dispatch]
  dsimp only
  split
  · exact hframe s.failure s.phase hphase
  · rename_i hnot
    have hd : s.isDone s.nextSpawn = false := Bool.eq_false_iff.mpr hnot
    split
    · exact hframe _ .tail (by decide)
    · rename_i hopened
      have hlo := hsound (by simpa using hopened) hd
      have hlen : fileLen (some (SegFile.openFile (s.segFiles s.nextSpawn)
          (decide (fileLen (s.segFiles s.nextSpawn) = 0))).1) =
            fileLen (s.segFiles s.nextSpawn) := by
        by_cases hz : fileLen (s.segFiles s.nextSpawn) = 0
        · rw [SegFile.openFile, decide_eq_true hz, hz]
          rfl
        · rw [SegFile.openFile, decide_eq_false hz]
          rfl
      have hhandle : (SegFile.openFile (s.segFiles s.nextSpawn)
          (decide (fileLen (s.segFiles s.nextSpawn) = 0))).2.written =
            (SegFile.openFile (s.segFiles s.nextSpawn)
              (decide (fileLen (s.segFiles s.nextSpawn) = 0))).1.length := rfl
      generalize SegFile.openFile (s.segFiles s.nextSpawn)
        (decide (fileLen (s.segFiles s.nextSpawn) = 0)) = o at hlen hhandle ⊢
      refine ⟨h.unordered, h.completed, ?_, h.length, h.written_le, fun i f hf => ?_,
        fun hc => absurd hc hphase⟩
      · have hsum := @sum_fileLen_update s.segFiles _ _ _ (some o.1) hlo hcan
        rw [hlen, Nat.add_right_cancel_iff] at hsum
        exact h.spilled.trans hsum.symm
      · dsimp only at hf
        by_cases hi : i = s.nextSpawn
        · subst hi
          rw [Function.update_self] at hf
          obtain rfl := Option.some.inj hf
          refine ⟨hlo, hcan, hd, ?_⟩
          dsimp only
          rw [Function.update_self]
          cases hp : s.plan.plainAt s.nextSpawn with
          | true => exact ⟨rfl, hhandle, fun b hb => by cases hb⟩
          | false => exact ⟨rfl, fun b hb => by cases hb⟩
        · rw [Function.update_of_ne hi] at hf
          obtain ⟨hlo', hhi', hd', hh'⟩ := h.flight i f hf
          refine ⟨hlo', hhi', hd', ?_⟩
          dsimp only
          rw [Function.update_of_ne hi]
          exact hh'

theorem Accounted.touch {i : Nat} {f f' : Fetch} {effect : FileEffect} (h : s.Accounted)
    (hf : s.fetches i = some f)
    (hkept : Fetch.Kept (s.plan.plainAt i) (s.segFiles i) (f', effect))
    (hphase : s.phase ≠ .closed none) :
    ({ s with fetches := Function.update s.fetches i (some f') }.touch i effect).Accounted := by
  obtain ⟨hlo, hhi, hd, -⟩ := h.flight i f hf
  have hfiles : ({ s with fetches := Function.update s.fetches i (some f') }.touch i effect).segFiles =
      Function.update s.segFiles i (effect.file (s.segFiles i)) := by
    rw [Unordered.touch, FileEffect.file]
    cases effect.bytes with
    | none => exact (Function.update_eq_self i s.segFiles).symm
    | some bytes => rfl
  have hsum := @sum_fileLen_update s.segFiles _ _ _ (effect.file (s.segFiles i)) hlo hhi
  have hle : fileLen (s.segFiles i) ≤ s.unspliced := by
    have hnone := @sum_fileLen_update s.segFiles _ _ _ none hlo hhi
    rw [show fileLen none = 0 from rfl] at hnone
    rw [unspliced]
    omega
  have hlen := hkept.2
  have hspilled := h.spilled
  dsimp only at hlen
  rw [unspliced] at hle hspilled
  refine ⟨h.unordered, h.completed, ?_, h.length, h.written_le, fun j g hg => ?_,
    fun hc => absurd hc hphase⟩
  · rw [unspliced, hfiles]
    show wrappingSub (s.stats.spilled + effect.gained) effect.lost =
      ∑ j ∈ Finset.Ico s.written s.count, _
    rw [wrappingSub, if_pos (by omega)]
    omega
  · change Function.update s.fetches i (some f') j = some g at hg
    rw [hfiles]
    by_cases hj : j = i
    · subst hj
      rw [Function.update_self] at hg
      obtain rfl := Option.some.inj hg
      rw [Function.update_self]
      exact ⟨hlo, hhi, hd, hkept.1⟩
    · rw [Function.update_of_ne hj] at hg
      rw [Function.update_of_ne hj]
      exact h.flight j g hg

theorem without_fetches {i j : Nat} {f : Fetch} (hf : (s.without i).fetches j = some f) :
    j ≠ i ∧ s.fetches j = some f := by
  change Function.update s.fetches i none j = some f at hf
  by_cases hj : j = i
  · subst hj
    rw [Function.update_self] at hf
    cases hf
  · rw [Function.update_of_ne hj] at hf
    exact ⟨hj, hf⟩

/-- A segment is marked complete and its load is gone. -/
theorem Accounted.markDone {i : Nat} (h : s.Accounted) (hi : s.fetches i = none)
    (saved : Option Bool) : (s.markDone digest parse i saved).Accounted := by
  obtain ⟨ctrl, failure, phase, hp, heq⟩ := @markDone_frame digest parse s i saved
  rw [heq]
  refine ⟨h.unordered, h.completed, h.spilled, ?_, h.written_le, fun j f hf => ?_,
    fun hc => absurd hc (hp none)⟩
  · exact List.length_set.trans h.length
  · have hj : j ≠ i := by
      rintro rfl
      exact absurd (hi.symm.trans hf) (by simp)
    obtain ⟨hlo, hhi, hd, hh⟩ := h.flight j f hf
    exact ⟨hlo, hhi, (isDone_set hj s).trans hd, hh⟩

theorem Accounted.without (h : s.Accounted) (i : Nat) (hphase : s.phase ≠ .closed none) :
    (s.without i).Accounted :=
  h.frame rfl rfl rfl rfl rfl rfl (fun _ _ hf => (without_fetches hf).2) fun hc =>
    absurd hc hphase

theorem Accounted.joinOk {i : Nat} {f : Fetch} {body : SegBody} {write : PlainWrite}
    {saved : Option Bool} (h : s.Accounted) (hf : s.fetches i = some f)
    (hended : f.state = .ended (.ok body)) (hphase : s.phase ≠ .closed none)
    (hempty : s.plan.plainAt i = false → fileLen (s.segFiles i) = 0)
    (htorn : ((s.without i).joinOk digest parse i body write saved).torn = false) :
    ((s.without i).joinOk digest parse i body write saved).Accounted := by
  have hwithout := h.without i hphase
  have hgone : (s.without i).fetches i = none := by
    rw [Unordered.without]
    exact Function.update_self ..
  by_cases hzero : body.onDisk = 0
  · obtain ⟨hlo, hhi, -, hh⟩ := h.flight i f hf
    -- the file is empty: nothing was written to it, or nothing was left in it
    have hlen : fileLen (s.segFiles i) = 0 := by
      rw [Fetch.Holds] at hh
      cases ht : f.target with
      | disk d =>
        rw [ht] at hh
        rw [← hh.2.1, ← (hh.2.2 body hended).1, hzero]
      | mem buf =>
        rw [ht] at hh
        exact hempty hh.1
    simp only [Unordered.joinOk, if_pos hzero] at htorn ⊢
    cases write with
    | whole =>
      refine Accounted.markDone ?_ ?_ saved
      rotate_left
      · exact hgone
      refine ⟨h.unordered, h.completed, ?_, h.length, h.written_le, fun j g hg => ?_,
        fun hc => absurd hc hphase⟩
      · have hsum := @sum_fileLen_update s.segFiles _ _ _ (some body.data) hlo hhi
        have hspilled := h.spilled
        rw [unspliced] at hspilled
        show s.stats.spilled + body.data.length = ∑ j ∈ Finset.Ico s.written s.count,
          fileLen (Function.update s.segFiles i (some body.data) j)
        rw [hlen, Nat.add_zero] at hsum
        rw [hsum, ← hspilled]
        rfl
      · obtain ⟨hj, hg⟩ := without_fetches hg
        obtain ⟨hlo', hhi', hd', hh'⟩ := h.flight j g hg
        refine ⟨hlo', hhi', hd', ?_⟩
        dsimp only
        rw [Function.update_of_ne hj]
        exact hh'
    | notOpened =>
      exact hwithout.frame rfl rfl rfl rfl rfl rfl (fun _ _ hf => hf) nofun
    | torn n => cases htorn
  · simp only [Unordered.joinOk, if_neg hzero]
    exact hwithout.markDone hgone saved

theorem Accounted.close (h : s.Accounted) (flushed : Bool) :
    (s.close digest parse flushed).Accounted := by
  have hframe : ∀ ctrl e,
      ({ s with ctrl, phase := .closed (some e) } : Unordered).Accounted := fun _ _ =>
    h.frame rfl rfl rfl rfl rfl rfl (fun _ _ hf => hf) nofun
  rw [Unordered.close]
  split
  · exact hframe _ _
  · split
    · rename_i hw
      have hnone : ∀ files : Nat → Option (List UInt8),
          ∑ i ∈ Finset.Ico s.written s.count, fileLen (files i) = 0 := fun files => by
        rw [hw, Finset.Ico_self, Finset.sum_empty]
      refine ⟨h.unordered, h.completed, ?_, h.length, h.written_le, fun i f hf => ?_, fun _ => hw⟩
      · rw [h.spilled]
        exact (hnone _).trans (hnone _).symm
      · obtain ⟨hlo, hhi, -⟩ := h.flight i f hf
        omega
    · exact hframe _ _

theorem plainAt_iff {plan : PlaylistPlan} {i : Nat} {seg : Segment} (h : plan.all[i]? = some seg) :
    plan.plainAt i = true ↔ seg.key = none := by
  rw [PlaylistPlan.plainAt, h, Option.any_some, decide_eq_true_eq]

/-- **One step keeps the counters right**, if it is sound and no write is half done behind it. -/
theorem Accounted.step {e : UnorderedEvent} (h : s.Accounted) (hsound : s.Sound e)
    (hstep : s.step digest parse decrypt opts e = some s') (htorn : s'.torn = false) :
    s'.Accounted := by
  cases step_outcome hstep with
  | cancel => exact h.frame rfl rfl rfl rfl rfl rfl (fun _ _ hf => hf) h.closed
  | splice hopen hcan hfile hphase =>
    exact (h.spliceSeg hcan _ (hopen none)).frame rfl rfl rfl rfl rfl rfl (fun _ _ hf => hf)
      fun hc => absurd hc (hphase none)
  | spliceTorn hopen hcan => exact h.spliceTorn _ htorn (hopen none)
  | settle hphase hover => exact h.settle _ _
  | flushFails hphase =>
    exact h.frame rfl rfl rfl rfl rfl rfl (fun _ _ hf => hf) fun hc => by
      rw [hphase] at hc
      cases hc
  | dispatch hphase hcan =>
    rw [canDispatch, Bool.and_eq_true, decide_eq_true_eq, decide_eq_true_eq] at hcan
    refine h.dispatch _ hcan.2 (by rw [hphase]; decide) fun hopened => ?_
    subst hopened
    exact hsound
  | wait hphase =>
    exact h.frame rfl rfl rfl rfl rfl rfl (fun _ _ hf => hf) nofun
  | fetch hphase hf hseg hr =>
    obtain ⟨-, -, -, hh⟩ := h.flight _ _ hf
    refine h.touch hf (hh.step (plainAt_iff hseg).mp (fun data hd => ?_) hr ?_)
      (by rw [hphase]; decide)
    · subst hd
      exact hsound _ hf
    · simp only [Unordered.touch, Bool.or_eq_false_iff] at htorn
      exact htorn.2
  | joinOk hphase hf hended =>
    refine h.joinOk hf hended (by rw [hphase]; decide) (fun hp => ?_) htorn
    exact hsound _ hf (by rw [Fetch.brought, hended]) hp
  | @joinErr i write saved f err hphase hf hended =>
    have hwithout := h.without i (by rw [hphase]; decide)
    rw [Unordered.joinErr]
    split
    · exact hwithout.frame rfl rfl rfl rfl rfl rfl (fun _ _ hf => hf) nofun
    · exact hwithout.frame rfl rfl rfl rfl rfl rfl (fun _ _ hf => hf) nofun
  | drained hphase hzero =>
    exact h.frame rfl rfl rfl rfl rfl rfl (fun _ _ hf => hf) nofun
  | close hphase hover => exact h.close _

/-- A write that is half done stays so. -/
theorem torn_of_step {e : UnorderedEvent}
    (hstep : s.step digest parse decrypt opts e = some s') (htorn : s'.torn = false) :
    s.torn = false := by
  cases step_outcome hstep with
  | spliceTorn hopen hcan =>
    simp only [spliceTorn, Bool.or_eq_false_iff] at htorn
    exact htorn.1
  | settle hphase hover =>
    rwa [settle_torn] at htorn
  | dispatch hphase hcan =>
    rw [dispatch] at htorn
    dsimp only at htorn
    split at htorn
    · exact htorn
    · split at htorn
      · exact htorn
      · exact htorn
  | fetch hphase hf hseg hr =>
    simp only [touch, Bool.or_eq_false_iff] at htorn
    exact htorn.1
  | @joinOk i write saved f body hphase hf hended =>
    by_cases hzero : body.onDisk = 0
    · simp only [joinOk, if_pos hzero] at htorn
      cases write with
      | whole =>
        rw [markDone_torn] at htorn
        exact htorn
      | notOpened => exact htorn
      | torn n => cases htorn
    · simp only [joinOk, if_neg hzero] at htorn
      rw [markDone_torn] at htorn
      exact htorn
  | joinErr hphase hf hended =>
    rw [joinErr] at htorn
    split at htorn
    · exact htorn
    · exact htorn
  | close hphase hover =>
    rw [close] at htorn
    split at htorn
    · exact htorn
    · split at htorn
      · exact htorn
      · exact htorn
  | _ => exact htorn

/-- The start, if no file is left of a segment that the product holds. -/
theorem begin_accounted {disk : PlaylistDisk} {plan : PlaylistPlan}
    (hleft : ∀ i < (begin digest parse disk plan).written, fileLen (disk.segFiles i) = 0) :
    (begin digest parse disk plan).Accounted := by
  have hcut : ∀ (files : Nat → Option (List UInt8)) (w n : Nat), w ≤ n →
      (∀ i < w, fileLen (files i) = 0) →
      spilledBytes files n = ∑ i ∈ Finset.Ico w n, fileLen (files i) := by
    intro files w n hw hz
    rw [spilledBytes_eq, Finset.range_eq_Ico, ← Finset.sum_Ico_consecutive _ (Nat.zero_le w) hw,
      Finset.sum_eq_zero fun i hi => hz i (Finset.mem_Ico.mp hi).2, Nat.zero_add]
  have hopen : ∀ n, (openProduct disk n).length = n := by
    intro n
    rw [openProduct]
    split
    · exact length_setLen _ n
    · rw [List.length_nil]
      omega
  cases hc : (loadCtrl digest parse disk.ctrl plan).filter PlaylistCtrl.isUnordered with
  | none =>
    simp only [begin, startUnordered, hc]
    refine ⟨rfl, (hopen 0).symm, ?_, List.length_replicate, Nat.zero_le _, fun i f hf => ?_,
      fun h => ?_⟩
    · exact hcut _ 0 _ (Nat.zero_le _) fun i hi => absurd hi (Nat.not_lt_zero i)
    · cases hf
    · cases h
  | some c =>
    have hle : (unorderedResume disk plan.all.length c).written ≤ plan.all.length := by
      simp only [unorderedResume]
      generalize (if fileLen disk.product ≥ c.bytes then c.bytes else 0) = spliced
      split
      · exact Nat.zero_le _
      · exact Nat.min_le_right _ _
    simp only [begin, startUnordered, hc] at hleft ⊢
    refine ⟨rfl, (hopen _).symm, hcut _ _ _ hle hleft, ?_, hle, fun i f hf => ?_, fun h => ?_⟩
    · rw [unorderedResume, List.length_map, List.length_range]
      rfl
    · cases hf
    · cases h

/-- **The progress of an unordered download is what is on the disk**, in every state of every run
from any leftovers whose steps are sound. -/
theorem balanced_of_run {disk : PlaylistDisk} {plan : PlaylistPlan} {es : List UnorderedEvent}
    (hleft : ∀ i < (begin digest parse disk plan).written, fileLen (disk.segFiles i) = 0)
    (hsound : Along (step digest parse decrypt opts) Sound (begin digest parse disk plan) es) :
    Everywhere (step digest parse decrypt opts) Balanced (begin digest parse disk plan) es :=
  everywhere_of_along (J := fun t => t.torn = false → t.Accounted)
    (fun _ ht hb => (ht hb).balanced hb)
    (fun _ _ _ ht he hstep hb => (ht (torn_of_step hstep hb)).step he hstep hb)
    (fun _ => begin_accounted hleft) hsound

/-- Two segments, of which the second one has a key if there is one. -/
def twoSegments (key : Option SegmentKey) : PlaylistPlan where
  source := "https://h/l.m3u8"
  segments := [{ url := "https://h/1.ts", seq := 1 }, { url := "https://h/2.ts", seq := 2, key }]

/-- What an unordered run left behind: so many segments in the product, and the files. -/
def leftBehind (plan : PlaylistPlan) (written : Nat) (product : List UInt8)
    (files : List (Option (List UInt8))) (mask : List Bool) : PlaylistDisk where
  product := some product
  segFiles := fun i => files[i]?.getD none
  ctrl := some (ctrlOf spelled parseBare plan written product.length 0 "unordered" mask)

/-- A run on what was left, one load at a time, with a cipher that leaves everything as it is. -/
def runOn (disk : PlaylistDisk) (plan : PlaylistPlan) (es : List UnorderedEvent) :
    Option Unordered :=
  run (step spelled parseBare (fun _ data => some data) { conn := 1 })
    (begin spelled parseBare disk plan) es

def someKey : SegmentKey :=
  { url := "https://h/k", iv := [], method := .aes128, keyFormat := .identity }

/-- Four runs that lose the balance: with a file left of a segment that is spliced; with a segment
that is complete at the start, spliced and loaded again; with a server that sends the whole of a
segment of which two bytes are there; with a complete file of a segment with a key that the control
file does not know of. -/
theorem balance_lost :
    (∃ t, runOn (leftBehind (twoSegments none) 1 [7, 7] [some [7, 7], none] []) (twoSegments none)
        [] = some t ∧ ¬ t.Balanced) ∧
      (∃ t, runOn (leftBehind (twoSegments none) 0 [] [some [7, 7], none] [true])
        (twoSegments none)
        [.splice true, .settle none, .dispatch true, .wait, .fetch 0 .begin,
          .fetch 0 (.answer false), .fetch 0 (.chunk [7, 7])] = some t ∧ ¬ t.Balanced) ∧
      (∃ t, runOn (leftBehind (twoSegments none) 0 [] [some [7, 7], none] []) (twoSegments none)
        [.settle none, .dispatch true, .wait, .fetch 0 .begin, .fetch 0 (.answer false),
          .fetch 0 (.chunk [7, 7, 7])] = some t ∧ ¬ t.Balanced) ∧
      ∃ t, runOn (leftBehind (twoSegments (some someKey)) 1 [7, 7] [none, some [8, 8]] [])
        (twoSegments (some someKey))
        [.settle none, .dispatch true, .wait, .fetch 1 .begin, .fetch 1 (.answer false),
          .fetch 1 (.chunk [8, 8]), .fetch 1 .finish, .join 1 .whole none] = some t ∧
        ¬ t.Balanced := by
  refine ⟨⟨_, rfl, fun h => ?_⟩, ⟨_, rfl, fun h => ?_⟩, ⟨_, rfl, fun h => ?_⟩,
    ⟨_, rfl, fun h => ?_⟩⟩
  · exact absurd (h rfl).1 (by decide)
  · exact absurd (h rfl).1 (by decide)
  · exact absurd (h rfl).1 (by decide)
  · exact absurd (h rfl).1 (by decide)

/-- Two bytes of the first segment are there, and the server honours the range. -/
def twoLoads : List UnorderedEvent :=
  [.settle none, .dispatch true, .wait, .fetch 0 .begin, .fetch 0 (.answer true),
    .fetch 0 (.chunk [7]), .fetch 0 (.fail .timeout), .fetch 0 .begin, .fetch 0 (.answer true),
    .fetch 0 (.chunk [7]), .fetch 0 .finish, .join 0 .whole (some true), .splice true,
    .settle (some true), .dispatch true, .wait, .fetch 1 .begin, .fetch 1 (.answer false),
    .fetch 1 (.chunk [8, 8]), .fetch 1 .finish, .join 1 .whole none, .splice true, .settle none,
    .close true]

theorem twoLoads_balanced :
    Everywhere (step spelled parseBare (fun _ data => some data) { conn := 1 }) Balanced
      (begin spelled parseBare
        (leftBehind (twoSegments (some someKey)) 0 [] [some [7, 7], none] [])
        (twoSegments (some someKey))) twoLoads :=
  balanced_of_run (by decide) (by decide)

end Unordered

end XferRust.Playlist
