import XferRust.Sftp.Target

/-! # The invariant of an SFTP download

Only the start of a download can undo what is right in the target, when it cuts one of another
length; and then a control file that still marks pieces tells of bytes that are gone.  `Safe` is
the invariant of clear runs; this module has what the workers, and the threads of those that were
aborted, do to it.
-/
namespace XferRust.Sftp.Download
open StepRun

variable {j : Job}

/-! ## The threads -/

/-- The download has its bitmap. -/
def Main.isOpen : Main → Bool
  | .idle | .cutting | .growing => false
  | _ => true

/-- The workers are at work. -/
def Main.works : Main → Bool
  | .running | .saving _ true | .syncing _ _ true | .synced _ true => true
  | _ => false

/-- The bitmap is one for the pieces of the file. -/
structure Bitmap.Of (j : Job) (b : Bitmap) : Prop where
  sound : b.Sound
  pieces : b.pieces = j.pieces

/-- What a save has is right: the pieces of its snapshot are in the target, and behind the `fsync`
they are durable. -/
def Main.Fits (j : Job) (d : Disk) : Main → Prop
  | .saving b _ => b.Of j ∧ ∀ idx, b.isDone idx = true → d.Has j idx
  | .syncing b data _ => b.Of j ∧ ∀ idx, b.isDone idx = true →
      d.Has j idx ∧ ∀ p, j.InPiece idx p → data[p]? = j.content[p]?
  | .synced b _ => b.Of j ∧ ∀ idx, b.isDone idx = true → d.Keeps j idx
  | _ => True

theorem Main.Fits.grow {m : Main} {d d' : Disk} (h : m.Fits j d) (hg : d.Grows j d') :
    m.Fits j d' := by
  cases m with
  | saving b goOn => exact ⟨h.1, fun idx hidx => (h.2 idx hidx).grow hg⟩
  | syncing b data goOn =>
    exact ⟨h.1, fun idx hidx => ⟨(h.2 idx hidx).1.grow hg, (h.2 idx hidx).2⟩⟩
  | synced b goOn => exact ⟨h.1, fun idx hidx => (h.2 idx hidx).grow hg⟩
  | idle | cutting | growing | ready | opening | running | finishing | removing => trivial

namespace Worker

/-- The worker has the piece, and has not marked it yet. -/
def Holds (w : Worker) (idx : Nat) : Prop :=
  match w with
  | .check k | .reading k _ | .writing k _ _ | .marking k => k = idx
  | _ => False

/-- What a worker has is right. -/
def Fits (j : Job) (d : Disk) : Worker → Prop
  | .check idx | .counting idx => idx < j.pieces
  | .reading idx buf =>
    idx < j.pieces ∧ j.Part (idx * pieceLen) buf ∧ buf.length ≤ pieceSize j.total idx
  | .writing idx buf pos =>
    idx < j.pieces ∧ j.Part (idx * pieceLen) buf ∧ buf.length = pieceSize j.total idx ∧
      pos ≤ buf.length ∧
      ∀ p, idx * pieceLen ≤ p → p < idx * pieceLen + pos → d.file[p]? = j.content[p]?
  | .marking idx => idx < j.pieces ∧ d.Has j idx
  | .loop | .ended _ => True

/-- The bytes that the worker is about to count. -/
def uncounted (j : Job) : Worker → Nat
  | .counting idx => pieceSize j.total idx
  | _ => 0

theorem Fits.grow {w : Worker} {d d' : Disk} (h : w.Fits j d) (hg : d.Grows j d') :
    w.Fits j d' := by
  cases w with
  | writing idx buf pos =>
    obtain ⟨hidx, hpart, hlen, hpos, hfile⟩ := h
    refine ⟨hidx, hpart, hlen, hpos, fun p hlo hhi => ?_⟩
    have hfits := hpart.fits
    obtain ⟨v, hv⟩ := Job.content_eq_some (j := j) (p := p) (by omega)
    rw [hv]
    exact hg.good p v hv ((hfile p hlo hhi).trans hv)
  | marking idx => exact ⟨h.1, h.2.grow hg⟩
  | loop | check | reading | counting | ended => exact h

/-- The size stands as a number of its own: the kernel would count in a piece's length. -/
theorem act_count_eq_some {w : Worker} {s : State} {r : State × Worker}
    (hact : w.act j s .count = some r) :
    ∃ idx size, w = .counting idx ∧ size = pieceSize j.total idx ∧
      r = ({ s with completed := s.completed + size }, .loop) := by
  simp only [act] at hact
  split at hact
  · exact ⟨_, _, rfl, rfl, (Option.some.inj hact).symm⟩
  · cases hact

end Worker

/-- The counter has dealt out the pieces: each one that was dealt is marked or in the hands of a
worker, unless a worker has failed. -/
structure State.Dealt (j : Job) (s : State) : Prop where
  some : s.workers ≠ []
  dealt : ∀ idx < j.pieces, idx < s.next → s.bitmap.isDone idx = true ∨
    (∃ w ∈ s.workers, w.Holds idx) ∨ .ended false ∈ s.workers
  past : .ended true ∈ s.workers → j.pieces ≤ s.next

/-- **The invariant** of clear runs. -/
structure State.Safe (j : Job) (s : State) : Prop where
  disk : s.disk.Sound
  length : s.main.isOpen = true → s.disk.file.length = j.total
  /-- A control file that fits lies beside a target of the right length, or of one that a crash
  does not change into it. -/
  apart : s.main.isOpen = false → (j.load s.disk.ctrl).isSome = true →
    (s.main ≠ .cutting ∧ s.disk.file.length = j.total) ∨ (s.stale = [] ∧ j.total ∉ s.disk.sizes)
  whole : s.main.isOpen = false ∨ s.main = .removing → s.cut = false
  honest : s.cut = false → s.disk.Honest j
  bitmap : s.bitmap.Of j
  has : s.main.isOpen = true → ∀ idx, s.bitmap.isDone idx = true → s.disk.Has j idx
  fresh : s.main = .cutting ∨ s.main = .growing → ∀ idx, s.bitmap.isDone idx = false
  main : s.main.Fits j s.disk
  workers : ∀ w ∈ s.workers, w.Fits j s.disk
  resting : s.main.works = false → s.workers = []
  stale : ∀ r ∈ s.stale, j.Part r.1 r.2
  dealt : s.main.works = true → s.Dealt j
  complete : s.main = .finishing ∨ s.main = .removing → ∀ idx < j.pieces, s.bitmap.isDone idx = true
  count : s.completed + Tiling.total (Worker.uncounted j) s.workers = s.bitmap.doneBytes j.total
  ok : s.outcome = some true → s.main = .idle ∧ s.disk.file = j.content ∧ s.disk.ctrl = none

theorem Disk.Honest.grow {d d' : Disk} (h : d.Honest j) (hg : d.Grows j d')
    (hlen : (j.load d.ctrl).isSome = true → d'.file.length = j.total →
      d.file.length = j.total) : d'.Honest j := by
  intro b hload hlen' idx hidx
  rw [hg.ctrl] at hload
  exact (h b hload (hlen (by rw [hload]; rfl) hlen') idx hidx).grow hg

/-- A target that is the remote file stays so. -/
theorem Disk.Grows.file_eq {d d' : Disk} (hg : d.Grows j d') (h : d.file = j.content) :
    d'.file = j.content := by
  have hlen : d'.file.length = j.total := hg.length (by rw [h]; rfl)
  refine XferRust.Sftp.Download.file_eq hlen fun idx _ => Disk.Has.grow (fun p _ => ?_) hg
  rw [h]

namespace State.Safe
variable {s : State}

/-- **Growth** keeps the invariant. -/
theorem grow (h : s.Safe j) {d : Disk} (hg : s.disk.Grows j d)
    (hsizes : s.main.isOpen = false → (j.load s.disk.ctrl).isSome = true →
      s.disk.file.length = j.total ∧ s.main ≠ .cutting) :
    ({ s with disk := d } : State).Safe j where
  disk := hg.sound
  length := fun hopen => hg.length (h.length hopen)
  apart := by
    intro hopen hload
    rw [hg.ctrl] at hload
    obtain ⟨hlen, hmain⟩ := hsizes hopen hload
    exact .inl ⟨hmain, hg.length hlen⟩
  whole := h.whole
  honest := by
    intro hcut
    refine (h.honest hcut).grow hg fun hload _ => ?_
    cases hopen : s.main.isOpen with
    | true => exact h.length hopen
    | false => exact (hsizes hopen hload).1
  bitmap := h.bitmap
  has := fun hopen idx hidx => (h.has hopen idx hidx).grow hg
  fresh := h.fresh
  main := h.main.grow hg
  workers := fun w hw => (h.workers w hw).grow hg
  resting := h.resting
  stale := h.stale
  dealt := fun hworks => ⟨(h.dealt hworks).some, (h.dealt hworks).dealt, (h.dealt hworks).past⟩
  complete := h.complete
  count := h.count
  ok := by
    intro hok
    obtain ⟨hidle, hfile, hctrl⟩ := h.ok hok
    exact ⟨hidle, hg.file_eq hfile, hg.ctrl.trans hctrl⟩

/-- The main loop moves on, with the workers as they are. -/
theorem move (h : s.Safe j) {m : Main} (hopen : s.main.isOpen = true) (hopen' : m.isOpen = true)
    (hstay : m ≠ .removing) (hworks : m.works = s.main.works) (hfits : m.Fits j s.disk)
    (hcomplete : m = .finishing → ∀ idx < j.pieces, s.bitmap.isDone idx = true) :
    ({ s with main := m } : State).Safe j where
  disk := h.disk
  length := fun _ => h.length hopen
  apart := fun hclosed => absurd (hopen'.symm.trans hclosed) (by decide)
  whole := by
    rintro (hclosed | hm)
    · cases hopen'.symm.trans hclosed
    · exact absurd hm hstay
  honest := h.honest
  bitmap := h.bitmap
  has := fun _ => h.has hopen
  fresh := by
    rintro (hm | hm)
    · rw [show m = .cutting from hm] at hopen'
      cases hopen'
    · rw [show m = .growing from hm] at hopen'
      cases hopen'
  main := hfits
  workers := h.workers
  resting := fun hrest => h.resting (hworks.symm.trans hrest)
  stale := h.stale
  dealt := fun hwork =>
    let hd := h.dealt (hworks.symm.trans hwork)
    ⟨hd.some, hd.dealt, hd.past⟩
  complete := fun hm => hcomplete (hm.resolve_right hstay)
  count := h.count
  ok := by
    intro hok
    rw [(h.ok hok).1] at hopen
    cases hopen

/-- Only a worker that counts keeps the counter behind. -/
theorem counted (h : s.Safe j) (hnone : ∀ idx, .counting idx ∉ s.workers) :
    s.completed = s.bitmap.doneBytes j.total := by
  have hzero : Tiling.total (Worker.uncounted j) s.workers = 0 := by
    refine Tiling.total_eq_zero.mpr fun w hw => ?_
    cases w with
    | counting idx => exact absurd hw (hnone idx)
    | loop | check | reading | writing | marking | ended => rfl
  have hcount := h.count
  rwa [hzero, Nat.add_zero] at hcount

theorem right (h : s.Safe j) : s.Right j where
  ok := fun hok => (h.ok hok).2
  durable := by
    intro b goOn hmain idx hidx
    have hfits := h.main
    rw [hmain] at hfits
    exact hfits.2 idx hidx
  counted := h.counted

/-- The workers have been joined. -/
theorem join (h : s.Safe j) {m : Main} (hmain : s.main = .running) (hopen : m.isOpen = true)
    (hstay : m ≠ .removing) (hrest : m.works = false) (hfits : m.Fits j s.disk)
    (hended : ∀ w ∈ s.workers, w = .ended true ∨ w = .ended false)
    (hcomplete : m = .finishing → ∀ idx < j.pieces, s.bitmap.isDone idx = true) :
    ({ s with main := m, workers := [] } : State).Safe j where
  disk := h.disk
  length := fun _ => h.length (by rw [hmain]; rfl)
  apart := fun hclosed => absurd (hopen.symm.trans hclosed) (by decide)
  whole := by
    rintro (hclosed | hm)
    · cases hopen.symm.trans hclosed
    · exact absurd hm hstay
  honest := h.honest
  bitmap := h.bitmap
  has := fun _ => h.has (by rw [hmain]; rfl)
  fresh := by
    rintro (hm | hm)
    · rw [show m = .cutting from hm] at hopen
      cases hopen
    · rw [show m = .growing from hm] at hopen
      cases hopen
  main := hfits
  workers := fun w hw => absurd hw List.not_mem_nil
  resting := fun _ => rfl
  stale := h.stale
  dealt := fun hworks => absurd (hrest.symm.trans hworks) (by decide)
  complete := fun hm => hcomplete (hm.resolve_right hstay)
  count := by
    refine h.counted fun idx hidx => ?_
    rcases hended _ hidx with hw | hw
    · cases hw
    · cases hw
  ok := by
    intro hok
    rw [(h.ok hok).1] at hmain
    cases hmain

/-- When every worker has come to its end without an error, all pieces are marked. -/
theorem all_done (h : s.Safe j) (hmain : s.main = .running)
    (hended : ∀ w ∈ s.workers, w = .ended true) :
    ∀ idx < j.pieces, s.bitmap.isDone idx = true := by
  have hdealt := h.dealt (by rw [hmain]; rfl)
  obtain ⟨w, hw⟩ := List.exists_mem_of_ne_nil _ hdealt.some
  have hpast : j.pieces ≤ s.next := hdealt.past (hended w hw ▸ hw)
  intro idx hidx
  rcases hdealt.dealt idx hidx (by omega) with hdone | ⟨x, hx, hholds⟩ | hfail
  · exact hdone
  · rw [hended x hx] at hholds
    exact hholds.elim
  · cases hended _ hfail

/-! ## Workers -/

variable {w w' : Worker} {i idx : Nat}

/-- A worker that is there works. -/
theorem works_of_mem (h : s.Safe j) (hw : w ∈ s.workers) : s.main.works = true := by
  cases hworks : s.main.works with
  | true => rfl
  | false =>
    rw [h.resting hworks] at hw
    cases hw

/-- **A worker's step** that leaves the disk and what is left to write alone: what it has is right,
its piece stays in its hands, is marked or the worker fails, and the counter keeps the account. -/
theorem set (h : s.Safe j) (hi : s.workers[i]? = some w) {b : Bitmap} {next completed : Nat}
    (hbitmap : b.Of j) (hhas : ∀ idx, b.isDone idx = true → s.disk.Has j idx)
    (hmore : ∀ idx, s.bitmap.isDone idx = true → b.isDone idx = true) (hfits : w'.Fits j s.disk)
    (hnext : s.next ≤ next) (hnew : ∀ idx < j.pieces, s.next ≤ idx → idx < next → w'.Holds idx)
    (hholds : ∀ idx, w.Holds idx → b.isDone idx = true ∨ w'.Holds idx ∨ w' = .ended false)
    (hlive : w ≠ .ended false) (hpast : w' = .ended true → j.pieces ≤ next)
    (hcount : completed + Tiling.total (Worker.uncounted j) (s.workers.set i w') =
      b.doneBytes j.total) :
    ({ s with bitmap := b, next, completed, workers := s.workers.set i w' } : State).Safe j := by
  have hlt : i < s.workers.length := (List.getElem?_eq_some_iff.mp hi).1
  have hw' : w' ∈ s.workers.set i w' := List.mem_set hlt w'
  have hworks := h.works_of_mem (List.mem_of_getElem? hi)
  have hopen : s.main.isOpen = true := by
    cases hmain : s.main with
    | idle | cutting | growing =>
      rw [hmain] at hworks
      cases hworks
    | ready | opening | running | saving | syncing | synced | finishing | removing => rfl
  -- the other workers are still there
  have hstay : ∀ x ∈ s.workers, x ≠ w → x ∈ s.workers.set i w' := by
    intro x hx hne
    obtain ⟨k, hk⟩ := List.getElem?_of_mem hx
    refine List.mem_of_getElem? (i := k) ?_
    rw [List.getElem?_set_ne, hk]
    rintro rfl
    exact hne (Option.some.inj (hk.symm.trans hi))
  constructor
  case disk => exact h.disk
  case length => exact h.length
  case apart => exact h.apart
  case whole => exact h.whole
  case honest => exact h.honest
  case bitmap => exact hbitmap
  case has => exact fun _ => hhas
  case fresh =>
    rintro (hm | hm)
    · rw [show s.main = .cutting from hm] at hopen
      cases hopen
    · rw [show s.main = .growing from hm] at hopen
      cases hopen
  case main => exact h.main
  case workers =>
    intro x hx
    rcases List.mem_or_eq_of_mem_set hx with hx | rfl
    · exact h.workers x hx
    · exact hfits
  case resting => exact fun hrest => absurd (hrest.symm.trans hworks) (by decide)
  case stale => exact h.stale
  case dealt =>
    intro _
    have hdealt := h.dealt hworks
    refine ⟨List.ne_nil_of_mem hw', fun idx hidx hlt' => ?_, fun hend => ?_⟩
    · by_cases hold : idx < s.next
      · rcases hdealt.dealt idx hidx hold with hdone | ⟨x, hx, hx'⟩ | hfail
        · exact .inl (hmore idx hdone)
        · by_cases hxw : x = w
          · rcases hholds idx (hxw ▸ hx') with hdone | hmine | hfails
            · exact .inl hdone
            · exact .inr (.inl ⟨w', hw', hmine⟩)
            · exact .inr (.inr (hfails ▸ hw'))
          · exact .inr (.inl ⟨x, hstay x hx hxw, hx'⟩)
        · exact .inr (.inr (hstay _ hfail hlive.symm))
      · exact .inr (.inl ⟨w', hw', hnew idx hidx (Nat.le_of_not_lt hold) hlt'⟩)
    · rcases List.mem_or_eq_of_mem_set hend with hold | heq
      · exact Nat.le_trans (hdealt.past hold) hnext
      · exact hpast heq.symm
  case complete =>
    rintro (hm | hm)
    · rw [show s.main = .finishing from hm] at hworks
      cases hworks
    · rw [show s.main = .removing from hm] at hworks
      cases hworks
  case count => exact hcount
  case ok =>
    intro hok
    rw [(h.ok hok).1] at hworks
    cases hworks

/-- The account when nothing is marked or counted. -/
theorem count_set (h : s.Safe j) (hi : s.workers[i]? = some w)
    (hsame : w'.uncounted j = w.uncounted j) :
    s.completed + Tiling.total (Worker.uncounted j) (s.workers.set i w') =
      s.bitmap.doneBytes j.total := by
  have hset := Tiling.total_set (f := Worker.uncounted j) hi w'
  have hcount := h.count
  omega

/-- A worker's step that only changes the worker. -/
theorem setWorker (h : s.Safe j) (hi : s.workers[i]? = some w) (hopen : s.main.isOpen = true)
    (hfits : w'.Fits j s.disk) (hholds : ∀ idx, w.Holds idx →
      s.bitmap.isDone idx = true ∨ w'.Holds idx ∨ w' = .ended false) (hlive : w ≠ .ended false)
    (hpast : w' ≠ .ended true) (hsame : w'.uncounted j = w.uncounted j) :
    ({ s with workers := s.workers.set i w' } : State).Safe j :=
  h.set hi h.bitmap (h.has hopen) (fun _ hdone => hdone) hfits (Nat.le_refl _)
    (fun _ _ hle hlt => absurd hlt (Nat.not_lt.mpr hle)) hholds hlive
    (fun heq => absurd heq hpast) (h.count_set hi hsame)

/-- A thread goes on with what an aborted worker was writing. -/
theorem detach (h : s.Safe j) (hopen : s.main.isOpen = true) {r : Nat × List UInt8}
    (hr : j.Part r.1 r.2) : ({ s with stale := s.stale ++ [r] } : State).Safe j where
  disk := h.disk
  length := h.length
  apart := fun hclosed => absurd (hopen.symm.trans hclosed) (by decide)
  whole := h.whole
  honest := h.honest
  bitmap := h.bitmap
  has := h.has
  fresh := h.fresh
  main := h.main
  workers := h.workers
  resting := h.resting
  stale := by
    intro x hx
    rcases List.mem_append.mp hx with hx | hx
    · exact h.stale x hx
    · exact List.mem_singleton.mp hx ▸ hr
  dealt := fun hworks => ⟨(h.dealt hworks).some, (h.dealt hworks).dealt, (h.dealt hworks).past⟩
  complete := h.complete
  count := h.count
  ok := h.ok

theorem isOpen_of_works (hworks : s.main.works = true) : s.main.isOpen = true := by
  cases hmain : s.main with
  | idle | cutting | growing =>
    rw [hmain] at hworks
    cases hworks
  | ready | opening | running | saving | syncing | synced | finishing | removing => rfl

theorem act_take (h : s.Safe j) (hi : s.workers[i]? = some .loop) :
    ({ s with
      next := s.next + 1
      workers := s.workers.set i
        (if s.bitmap.pieces ≤ s.next then .ended true else .check s.next) } : State).Safe j := by
  have hopen := isOpen_of_works (h.works_of_mem (List.mem_of_getElem? hi))
  rw [h.bitmap.pieces]
  by_cases hend : j.pieces ≤ s.next
  · rw [if_pos hend]
    refine h.set hi h.bitmap (h.has hopen) (fun _ hdone => hdone) trivial (Nat.le_succ _) ?_
      (fun _ hholds => hholds.elim) (by decide) (fun _ => by omega) (h.count_set hi rfl)
    intro idx hidx hle _
    omega
  · rw [if_neg hend]
    refine h.set hi h.bitmap (h.has hopen) (fun _ hdone => hdone) (Nat.lt_of_not_le hend)
      (Nat.le_succ _) ?_ (fun _ hholds => hholds.elim) (by decide)
      nofun (h.count_set hi rfl)
    intro idx _ hle hlt
    exact Nat.le_antisymm hle (by omega)

theorem act_mark (h : s.Safe j) (hi : s.workers[i]? = some (.marking idx)) :
    ({ s with
      bitmap := (s.bitmap.mark idx).1
      workers := s.workers.set i
        (if (s.bitmap.mark idx).2 then .counting idx else .loop) } : State).Safe j := by
  have hopen := isOpen_of_works (h.works_of_mem (List.mem_of_getElem? hi))
  obtain ⟨hidx, hhas⟩ := h.workers _ (List.mem_of_getElem? hi)
  by_cases hnew : (s.bitmap.mark idx).2 = true
  · rw [if_pos hnew]
    have hdone := Bitmap.isDone_mark h.bitmap.sound.size hnew
    refine h.set hi ⟨h.bitmap.sound.mark idx, (Bitmap.pieces_mark _ _).trans h.bitmap.pieces⟩
      (fun k hk => ?_) (fun k hk => ?_) hidx (Nat.le_refl _)
      (fun _ _ hle hlt => absurd hlt (Nat.not_lt.mpr hle)) (fun k hholds => .inl ?_)
      nofun nofun ?_
    · rw [hdone k] at hk
      rcases Bool.or_eq_true_iff.mp hk with hold | heq
      · exact h.has hopen k hold
      · exact of_decide_eq_true heq ▸ hhas
    · rw [hdone k, hk, Bool.true_or]
    · obtain rfl : idx = k := hholds
      rw [hdone idx, decide_eq_true rfl, Bool.or_true]
    · have hset := Tiling.total_set (f := Worker.uncounted j) hi (.counting idx)
      have hcount := h.count
      rw [Bitmap.doneBytes_mark h.bitmap.sound h.bitmap.pieces hnew]
      simp only [Worker.uncounted] at hset
      omega
  · rw [if_neg hnew, Bitmap.mark_of_not_new (Bool.eq_false_iff.mpr hnew)]
    refine h.setWorker hi hopen trivial (fun k hholds => .inl ?_) nofun
      nofun rfl
    obtain rfl : idx = k := hholds
    cases hdone : s.bitmap.isDone idx with
    | true => rfl
    | false =>
      exact absurd (Bitmap.mark_snd.mpr ⟨h.bitmap.pieces.symm ▸ hidx, hdone⟩) hnew

theorem act_count (h : s.Safe j) (hi : s.workers[i]? = some (.counting idx)) :
    ({ s with
      completed := s.completed + pieceSize j.total idx
      workers := s.workers.set i .loop } : State).Safe j := by
  have hopen := isOpen_of_works (h.works_of_mem (List.mem_of_getElem? hi))
  refine h.set hi h.bitmap (h.has hopen) (fun _ hdone => hdone) trivial (Nat.le_refl _)
    (fun _ _ hle hlt => absurd hlt (Nat.not_lt.mpr hle)) (fun _ hholds => hholds.elim)
    nofun nofun ?_
  have hset := Tiling.total_set (f := Worker.uncounted j) hi .loop
  have hcount := h.count
  simp only [Worker.uncounted] at hset
  omega

theorem act_write (h : s.Safe j) {pos n : Nat} {buf : List UInt8}
    (hi : s.workers[i]? = some (.writing idx buf pos)) (hn : pos + n ≤ buf.length) :
    ({ s with
      disk := s.disk.write (idx * pieceLen + pos) ((buf.drop pos).take n)
      workers := s.workers.set i (.writing idx buf (pos + n)) } : State).Safe j := by
  have hopen := isOpen_of_works (h.works_of_mem (List.mem_of_getElem? hi))
  obtain ⟨hidx, hpart, hlen, hpos, hfile⟩ := h.workers _ (List.mem_of_getElem? hi)
  have hmore : j.Part (idx * pieceLen + pos) ((buf.drop pos).take n) := (hpart.drop hpos).take n
  have hg := Disk.grows_write h.disk hmore
  have hgrown : ({ s with
      disk := s.disk.write (idx * pieceLen + pos) ((buf.drop pos).take n) } : State).Safe j :=
    h.grow hg fun hclosed => absurd (hopen.symm.trans hclosed) (by decide)
  refine hgrown.setWorker hi hopen ⟨hidx, hpart, hlen, hn, fun p hlo hhi => ?_⟩
    (fun k hholds => .inr (.inl hholds)) nofun nofun rfl
  have hfits := hpart.fits
  by_cases hold : p < idx * pieceLen + pos
  · obtain ⟨v, hv⟩ := Job.content_eq_some (j := j) (p := p) (by omega)
    rw [hv]
    exact hg.good p v hv ((hfile p hlo hold).trans hv)
  · refine Disk.getElem?_write hmore (Nat.le_of_not_lt hold) ?_
    rw [List.length_take, List.length_drop]
    omega

/-- **The workers** keep the invariant. -/
theorem act (h : s.Safe j) {a : Act} {s' : State} (hstep : s.step j (.act i a) = some s') :
    s'.Safe j := by
  obtain ⟨w, hi, hact⟩ := Option.bind_eq_some_iff.mp hstep
  obtain ⟨⟨u, w'⟩, hw', rfl⟩ := Option.map_eq_some_iff.mp hact
  have hmem := List.mem_of_getElem? hi
  have hopen := isOpen_of_works (h.works_of_mem hmem)
  have hfits := h.workers w hmem
  cases a with
  | take =>
    simp only [Worker.act] at hw'
    split at hw'
    · cases hw'
      exact h.act_take hi
    · cases hw'
  | look =>
    simp only [Worker.act] at hw'
    split at hw'
    · rename_i idx
      cases hw'
      by_cases hdone : s.bitmap.isDone idx = true
      · rw [if_pos hdone]
        refine h.setWorker hi hopen trivial (fun k hholds => .inl ?_) nofun
          nofun rfl
        obtain rfl : idx = k := hholds
        exact hdone
      · rw [if_neg hdone]
        have hlt : idx * pieceLen < j.total := Bitmap.mul_pieceLen_lt hfits
        exact h.setWorker hi hopen ⟨hfits, Job.part_nil (Nat.le_of_lt hlt), Nat.zero_le _⟩
          (fun k hholds => .inr (.inl hholds)) nofun
          nofun rfl
    · cases hw'
  | read n =>
    simp only [Worker.act] at hw'
    split at hw'
    · rename_i idx buf
      split at hw'
      · rename_i hn
        cases hw'
        obtain ⟨hidx, hpart, hlen⟩ := hfits
        have hend := Job.end_le hidx
        obtain ⟨hpart', hlen'⟩ := hpart.append (n := n) (by omega)
        exact h.setWorker hi hopen ⟨hidx, hpart', hlen' ▸ hn.2.2⟩
          (fun k hholds => .inr (.inl hholds)) nofun
          nofun rfl
      · cases hw'
    · cases hw'
  | put =>
    simp only [Worker.act] at hw'
    split at hw'
    · rename_i idx buf
      split at hw'
      · rename_i hfull
        cases hw'
        refine h.setWorker hi hopen ⟨hfits.1, hfits.2.1, hfull, Nat.zero_le _, ?_⟩
          (fun k hholds => .inr (.inl hholds)) nofun
          nofun rfl
        intro p hlo hhi
        omega
      · cases hw'
    · cases hw'
  | write n =>
    simp only [Worker.act] at hw'
    split at hw'
    · split at hw'
      · rename_i hn
        cases hw'
        exact h.act_write hi hn.2
      · cases hw'
    · cases hw'
  | written =>
    simp only [Worker.act] at hw'
    split at hw'
    · split at hw'
      · rename_i hend
        cases hw'
        obtain ⟨hidx, hpart, hlen, hpos, hfile⟩ := hfits
        refine h.setWorker hi hopen ⟨hidx, fun p hp => hfile p hp.1 ?_⟩
          (fun k hholds => .inr (.inl hholds)) nofun
          nofun rfl
        rw [hend, hlen]
        exact hp.2
      · cases hw'
    · cases hw'
  | mark =>
    simp only [Worker.act] at hw'
    split at hw'
    · cases hw'
      exact h.act_mark hi
    · cases hw'
  | count =>
    obtain ⟨idx, size, rfl, hsize, heq⟩ := Worker.act_count_eq_some hw'
    cases heq
    have hcounted := h.act_count hi
    rw [← hsize] at hcounted
    exact hcounted
  | fail detached =>
    simp only [Worker.act] at hw'
    split at hw'
    · cases hw'
      exact h.setWorker hi hopen trivial (fun _ _ => .inr (.inr rfl)) nofun
        nofun rfl
    · cases hw'
      exact h.setWorker hi hopen trivial (fun _ _ => .inr (.inr rfl)) nofun
        nofun rfl
    · rename_i idx buf pos
      cases hw'
      cases detached with
      | false =>
        exact h.setWorker hi hopen trivial (fun _ _ => .inr (.inr rfl)) nofun
          nofun rfl
      | true =>
        have hpart : j.Part (idx * pieceLen + pos) (buf.drop pos) := hfits.2.1.drop hfits.2.2.2.1
        exact (h.detach hopen hpart).setWorker hi hopen trivial (fun _ _ => .inr (.inr rfl))
          nofun nofun rfl
    · cases hw'

/-- The threads of aborted workers write what is right. -/
theorem write_on (h : s.Safe j) {k n : Nat} {r : Nat × List UInt8} (hk : s.stale[k]? = some r)
    (hn : n ≤ r.2.length) :
    ({ s with
      disk := s.disk.write r.1 (r.2.take n)
      stale := s.stale.set k (r.1 + n, r.2.drop n) } : State).Safe j := by
  have hr := h.stale r (List.mem_of_getElem? hk)
  have hne : s.stale ≠ [] := List.ne_nil_of_mem (List.mem_of_getElem? hk)
  have hsizes : s.main.isOpen = false → (j.load s.disk.ctrl).isSome = true →
      s.disk.file.length = j.total ∧ s.main ≠ .cutting := by
    intro hclosed hload
    rcases h.apart hclosed hload with ⟨hmain, hlen⟩ | ⟨hnil, -⟩
    · exact ⟨hlen, hmain⟩
    · exact absurd hnil hne
  have hgrown := h.grow (Disk.grows_write h.disk (hr.take n)) hsizes
  exact {
    disk := hgrown.disk
    length := hgrown.length
    apart := fun hclosed hload => .inl
      ⟨(hsizes hclosed hload).2, Disk.length_write (hr.take n) (hsizes hclosed hload).1⟩
    whole := hgrown.whole
    honest := hgrown.honest
    bitmap := hgrown.bitmap
    has := hgrown.has
    fresh := hgrown.fresh
    main := hgrown.main
    workers := hgrown.workers
    resting := hgrown.resting
    stale := by
      intro x hx
      rcases List.mem_or_eq_of_mem_set hx with hx | rfl
      · exact h.stale x hx
      · exact hr.drop hn
    dealt := fun hworks =>
      ⟨(hgrown.dealt hworks).some, (hgrown.dealt hworks).dealt, (hgrown.dealt hworks).past⟩
    complete := hgrown.complete
    count := hgrown.count
    ok := hgrown.ok }

end State.Safe

end XferRust.Sftp.Download
