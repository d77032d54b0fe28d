import XferRust.Sftp.DownloadSafety

/-! # SFTP downloads store the remote file

The steps of the main loop and a crash keep the invariant, too, and `right_of_clear_run` is what
comes of it: behind every `Ok` of a clear run the target is the remote file.
-/
namespace XferRust.Sftp.Download
open StepRun

variable {j : Job}

namespace State.Safe
variable {s : State}

/-! ## The main loop -/

theorem of_load {ctrl : Option Content} {b : Bitmap} (h : j.load ctrl = some b) : b.Of j := by
  unfold Job.load at h
  split at h
  · split at h
    · cases h
    · split at h
      · cases h
      · exact ⟨Bitmap.sound_fromHex h, Bitmap.pieces_fromHex h⟩
  · cases h

/-- Nothing is left to count when there are no workers. -/
theorem count_nil (b : Bitmap) :
    b.doneBytes j.total + Tiling.total (Worker.uncounted j) [] = b.doneBytes j.total := by
  rw [Tiling.total_nil, Nat.add_zero]

theorem start (h : s.Safe j) (hmain : s.main = .idle) : (s.start j).Safe j := by
  have hworkers : s.workers = [] := h.resting (by rw [hmain]; rfl)
  have hcut : s.cut = false := h.whole (.inl (by rw [hmain]; rfl))
  unfold State.start
  dsimp only
  split
  · rename_i b hb
    obtain ⟨hload, hlen⟩ := Option.filter_eq_some_iff.mp hb
    have hlen : s.disk.file.length = j.total := of_decide_eq_true hlen
    exact {
      disk := h.disk
      length := fun _ => hlen
      apart := nofun
      whole := fun _ => hcut
      honest := h.honest
      bitmap := of_load hload
      has := fun _ idx hidx => (h.honest hcut b hload hlen idx hidx).has h.disk
      fresh := fun hm => hm.elim nofun nofun
      main := trivial
      workers := h.workers
      resting := fun _ => hworkers
      stale := h.stale
      dealt := nofun
      complete := fun hm => hm.elim nofun nofun
      count := by
        show b.doneBytes j.total + Tiling.total (Worker.uncounted j) s.workers = _
        rw [hworkers]
        exact count_nil b
      ok := nofun }
  · rename_i hnone
    exact {
      disk := h.disk
      length := nofun
      apart := by
        intro _ hload
        obtain ⟨b, hb⟩ := Option.isSome_iff_exists.mp hload
        have hlen : s.disk.file.length ≠ j.total := by
          intro hlen
          have hsome : j.inherited s.disk = some b :=
            Option.filter_eq_some_iff.mpr ⟨hb, decide_eq_true hlen⟩
          cases hnone.symm.trans hsome
        rcases h.apart (by rw [hmain]; rfl) hload with ⟨-, hsame⟩ | hright
        · exact absurd hsame hlen
        · exact .inr hright
      whole := fun _ => hcut
      honest := h.honest
      bitmap := ⟨Bitmap.sound_new _, rfl⟩
      has := nofun
      fresh := fun _ => Bitmap.isDone_new j.total
      main := trivial
      workers := h.workers
      resting := fun _ => hworkers
      stale := h.stale
      dealt := nofun
      complete := fun hm => hm.elim nofun nofun
      count := by
        show 0 + Tiling.total (Worker.uncounted j) s.workers = _
        rw [hworkers, Bitmap.doneBytes_new]
        rfl
      ok := nofun }

/-- The target is cut. -/
theorem cut_target (h : s.Safe j) (hmain : s.main = .cutting) :
    ({ s with main := .growing, disk := s.disk.setLen 0 } : State).Safe j where
  disk := h.disk.setLen 0
  length := nofun
  apart := by
    intro _ hload
    rcases h.apart (by rw [hmain]; rfl) hload with ⟨hne, -⟩ | ⟨hstale, hsizes⟩
    · exact absurd hmain hne
    · by_cases hzero : j.total = 0
      · exact .inl ⟨nofun, (Disk.length_setLen _ 0).trans hzero.symm⟩
      · refine .inr ⟨hstale, fun hmem => ?_⟩
        rcases List.mem_cons.mp hmem with heq | hold
        · exact hzero heq
        · exact hsizes hold
  whole := fun _ => h.whole (.inl (by rw [hmain]; rfl))
  honest := by
    intro _ b _ hlen idx _ p hp
    rw [Disk.length_setLen] at hlen
    exact absurd hp.lt_total (by omega)
  bitmap := h.bitmap
  has := nofun
  fresh := fun _ => h.fresh (.inl hmain)
  main := trivial
  workers := by
    rw [show s.workers = [] from h.resting (by rw [hmain]; rfl)]
    exact fun w hw => absurd hw List.not_mem_nil
  resting := fun _ => h.resting (by rw [hmain]; rfl)
  stale := h.stale
  dealt := nofun
  complete := fun hm => hm.elim nofun nofun
  count := h.count
  ok := by
    intro hok
    rw [(h.ok hok).1] at hmain
    cases hmain

/-- The target gets its length; what is in it is not what a control file tells of. -/
theorem grow_target (h : s.Safe j) (hmain : s.main = .growing) :
    ({ s with
      main := .ready
      disk := s.disk.setLen j.total
      cut := j.claims s.disk.ctrl } : State).Safe j where
  disk := h.disk.setLen j.total
  length := fun _ => Disk.length_setLen _ _
  apart := nofun
  whole := fun hm => hm.elim nofun nofun
  honest := by
    intro hcut b hload _ idx hidx
    exfalso
    have hclaims : j.claims s.disk.ctrl = false := hcut
    rw [Job.claims, show j.load s.disk.ctrl = some b from hload, Option.any_some, Bitmap.marks,
      List.any_eq_false] at hclaims
    exact hclaims idx (List.mem_range.mpr (Bitmap.isDone_lt hidx)) hidx
  bitmap := h.bitmap
  has := by
    intro _ idx hidx
    rw [h.fresh (.inr hmain) idx] at hidx
    cases hidx
  fresh := fun hm => hm.elim nofun nofun
  main := trivial
  workers := by
    rw [show s.workers = [] from h.resting (by rw [hmain]; rfl)]
    exact fun w hw => absurd hw List.not_mem_nil
  resting := fun _ => h.resting (by rw [hmain]; rfl)
  stale := h.stale
  dealt := nofun
  complete := fun hm => hm.elim nofun nofun
  count := h.count
  ok := by
    intro hok
    rw [(h.ok hok).1] at hmain
    cases hmain

/-- **The end** of a download that is not complete. -/
theorem leave (h : s.Safe j) (hrest : s.main.works = false)
    (hcut : s.cut = false) : (s.return false).Safe j where
  disk := h.disk
  length := nofun
  apart := by
    intro _ hload
    cases hopen : s.main.isOpen with
    | true => exact .inl ⟨nofun, h.length hopen⟩
    | false =>
      rcases h.apart hopen hload with ⟨-, hlen⟩ | hright
      · exact .inl ⟨nofun, hlen⟩
      · exact .inr hright
  whole := fun _ => hcut
  honest := h.honest
  bitmap := h.bitmap
  has := nofun
  fresh := fun hm => hm.elim nofun nofun
  main := trivial
  workers := h.workers
  resting := fun _ => h.resting hrest
  stale := h.stale
  dealt := nofun
  complete := fun hm => hm.elim nofun nofun
  count := h.count
  ok := nofun

/-- Behind a save. -/
theorem go_on (h : s.Safe j) {goOn : Bool} (hopen : s.main.isOpen = true)
    (hworks : s.main.works = goOn) (hcut : goOn = false → s.cut = false) :
    (s.after goOn).Safe j := by
  cases goOn with
  | true =>
    exact h.move hopen rfl nofun hworks.symm trivial nofun
  | false => exact h.leave hworks (hcut rfl)

theorem begin (h : s.Safe j) (hmain : s.main = .ready) :
    ({ s with
      completed := s.bitmap.doneBytes j.total
      main := if j.total = 0 ∨ s.bitmap.isComplete then .finishing else .opening } :
        State).Safe j := by
  have hworkers : s.workers = [] := h.resting (by rw [hmain]; rfl)
  have hsame : s.completed = s.bitmap.doneBytes j.total := by
    have hcount := h.count
    rwa [hworkers, Tiling.total_nil, Nat.add_zero] at hcount
  rw [← hsame]
  by_cases hall : j.total = 0 ∨ s.bitmap.isComplete = true
  · rw [if_pos hall]
    refine h.move (by rw [hmain]; rfl) rfl nofun (by rw [hmain]; rfl) trivial
      fun _ idx hidx => ?_
    rcases hall with hzero | hcomplete
    · have hlt := Bitmap.mul_pieceLen_lt hidx
      omega
    · exact h.bitmap.sound.isComplete_iff.mp hcomplete idx (h.bitmap.pieces.symm ▸ hidx)
  · rw [if_neg hall]
    exact h.move (by rw [hmain]; rfl) rfl nofun (by rw [hmain]; rfl) trivial
      nofun

/-- The channels are open. -/
theorem spawn (h : s.Safe j) (hmain : s.main = .opening) {n : Nat} (hn : 0 < n) :
    ({ s with
      main := .running, next := 0, workers := List.replicate n .loop } : State).Safe j where
  disk := h.disk
  length := fun _ => h.length (by rw [hmain]; rfl)
  apart := nofun
  whole := fun hm => hm.elim nofun nofun
  honest := h.honest
  bitmap := h.bitmap
  has := fun _ => h.has (by rw [hmain]; rfl)
  fresh := fun hm => hm.elim nofun nofun
  main := trivial
  workers := by
    intro w hw
    rw [List.eq_of_mem_replicate hw]
    trivial
  resting := nofun
  stale := h.stale
  dealt := fun _ => by
    refine ⟨fun hnil => ?_, fun idx _ hlt => absurd hlt (Nat.not_lt_zero idx), fun hend => ?_⟩
    · have hlen : (List.replicate n Worker.loop).length = 0 := by
        rw [show List.replicate n Worker.loop = [] from hnil]
        rfl
      rw [List.length_replicate] at hlen
      omega
    · cases List.eq_of_mem_replicate hend
  complete := fun hm => hm.elim nofun nofun
  count := by
    have hcount := h.count
    rw [show s.workers = [] from h.resting (by rw [hmain]; rfl), Tiling.total_nil] at hcount
    have hzero : Tiling.total (Worker.uncounted j) (List.replicate n .loop) = 0 :=
      Tiling.total_eq_zero.mpr fun w hw => by
        rw [List.eq_of_mem_replicate hw]
        rfl
    show s.completed + Tiling.total (Worker.uncounted j) (List.replicate n .loop) = _
    rw [hzero]
    exact hcount
  ok := by
    intro hok
    rw [(h.ok hok).1] at hmain
    cases hmain

/-- What `save` has written is what `load` reads. -/
theorem load_ctrlFile {b : Bitmap} (hb : b.Of j) :
    ∃ b', j.load (some (.file (j.ctrlFile b))) = some b' ∧ ∀ idx, b'.isDone idx = b.isDone idx := by
  obtain ⟨b', hb', hsame⟩ := Bitmap.fromHex_toHex hb.sound
  refine ⟨b', ?_, hsame⟩
  rw [hb.pieces] at hb'
  rw [Job.load, if_neg (by simp [Job.ctrlFile]), if_neg (by simp [Job.ctrlFile])]
  exact hb'

/-- **The rename**: from now on the control file marks durable pieces. -/
theorem rename (h : s.Safe j) {b : Bitmap} {goOn : Bool} (hmain : s.main = .synced b goOn) :
    ({ s with
      disk := { s.disk with ctrl := some (.file (j.ctrlFile b)) }
      cut := false } : State).Safe j where
  disk := ⟨h.disk.stable, h.disk.size⟩
  length := h.length
  apart := by
    intro hclosed
    rw [show s.main = .synced b goOn from hmain] at hclosed
    cases hclosed
  whole := fun _ => rfl
  honest := by
    intro _ b₁ hload _ idx hidx
    have hfits := h.main
    rw [hmain] at hfits
    obtain ⟨b', hb', hsame⟩ := load_ctrlFile hfits.1
    obtain rfl : b' = b₁ := Option.some.inj (hb'.symm.trans hload)
    exact hfits.2 idx (hsame idx ▸ hidx)
  bitmap := h.bitmap
  has := h.has
  fresh := h.fresh
  main := by
    have hfits := h.main
    show Main.Fits j _ s.main
    rw [hmain] at hfits ⊢
    exact hfits
  workers := by
    intro w hw
    have hfits := h.workers w hw
    cases w with
    | loop | check | reading | writing | marking | counting | ended => exact hfits
  resting := h.resting
  stale := h.stale
  dealt := fun hworks => ⟨(h.dealt hworks).some, (h.dealt hworks).dealt, (h.dealt hworks).past⟩
  complete := h.complete
  count := h.count
  ok := by
    intro hok
    rw [(h.ok hok).1] at hmain
    cases hmain

/-- `sync_all`, when all pieces are in the target. -/
theorem finish (h : s.Safe j) (hmain : s.main = .finishing) :
    ({ s with
      main := .removing, disk := s.disk.sync s.disk.file, cut := false } : State).Safe j := by
  have hopen : s.main.isOpen = true := by
    rw [hmain]
    rfl
  have hworkers : s.workers = [] := h.resting (by rw [hmain]; rfl)
  have hgrown : ({ s with disk := s.disk.sync s.disk.file } : State).Safe j :=
    h.grow (Disk.grows_sync h.disk s.disk.file) fun hclosed => by cases hopen.symm.trans hclosed
  refine { hgrown with
    length := fun _ => h.length hopen
    apart := nofun
    whole := fun _ => rfl
    honest := ?_
    has := fun _ => hgrown.has hopen
    fresh := fun hm => hm.elim nofun nofun
    main := trivial
    resting := fun _ => hworkers
    dealt := nofun
    complete := fun _ => h.complete (.inl hmain)
    ok := fun hok => ?_ }
  case refine_2 => cases hmain.symm.trans (h.ok hok).1
  intro _ b hload _ idx hidx
  have hlt : idx < j.pieces := (of_load hload).pieces ▸ Bitmap.isDone_lt hidx
  have hhas := h.has hopen idx (h.complete (.inl hmain) idx hlt)
  exact Disk.keeps_sync hhas hhas

/-- **The end** of a complete download. -/
theorem remove (h : s.Safe j) (hmain : s.main = .removing) {ok : Bool}
    (hok : ok = true ∨ s.disk.ctrl = none) :
    (State.return { s with
      disk := { s.disk with ctrl := if ok then none else s.disk.ctrl }
      completed := j.total } true).Safe j := by
  have hctrl : (if ok = true then none else s.disk.ctrl) = none := by
    rcases hok with hok | hnone
    · exact if_pos hok
    · rw [hnone, ite_self]
  have hall := h.complete (.inr hmain)
  have hopen : s.main.isOpen = true := by
    rw [hmain]
    rfl
  have hworkers : s.workers = [] := h.resting (by rw [hmain]; rfl)
  have hlen := h.length hopen
  have hdisk : ({ s.disk with ctrl := if ok then none else s.disk.ctrl } : Disk).Sound :=
    ⟨h.disk.stable, h.disk.size⟩
  exact {
    disk := hdisk
    length := nofun
    apart := fun _ _ => .inl ⟨nofun, hlen⟩
    whole := fun _ => h.whole (.inr hmain)
    honest := by
      intro _ b hload
      have hload' : j.load (if ok then none else s.disk.ctrl) = some b := hload
      rw [hctrl] at hload'
      cases hload'
    bitmap := h.bitmap
    has := nofun
    fresh := fun hm => hm.elim nofun nofun
    main := trivial
    workers := by
      intro w hw
      rw [show s.workers = [] from hworkers] at hw
      cases hw
    resting := fun _ => hworkers
    stale := h.stale
    dealt := nofun
    complete := fun hm => hm.elim nofun nofun
    count := by
      show j.total + Tiling.total (Worker.uncounted j) s.workers = s.bitmap.doneBytes j.total
      rw [hworkers, Bitmap.doneBytes_complete h.bitmap.pieces fun idx hidx =>
        hall idx (h.bitmap.pieces ▸ hidx)]
      rfl
    ok := fun _ => ⟨rfl, file_eq hlen fun idx hidx => h.has hopen idx (hall idx hidx), hctrl⟩ }

/-- Nothing runs, and a control file tells the truth. -/
theorem rest {d : Disk} (hsound : d.Sound) (hhonest : d.Honest j)
    (hsizes : d.file.length = j.total ∨ j.total ∉ d.sizes) : (State.rest j d).Safe j where
  disk := hsound
  length := nofun
  apart := by
    intro _ _
    rcases hsizes with hlen | hnot
    · exact .inl ⟨nofun, hlen⟩
    · exact .inr ⟨rfl, hnot⟩
  whole := fun _ => rfl
  honest := fun _ => hhonest
  bitmap := ⟨Bitmap.sound_new _, rfl⟩
  has := nofun
  fresh := fun _ => Bitmap.isDone_new j.total
  main := trivial
  workers := fun w hw => by cases hw
  resting := fun _ => rfl
  stale := fun r hr => by cases hr
  dealt := nofun
  complete := fun hm => hm.elim nofun nofun
  count := by
    show 0 + 0 = _
    rw [State.rest, Bitmap.doneBytes_new]
  ok := nofun

theorem rest_atRest {file : List UInt8} {ctrl : Option Content}
    (hhonest : (Disk.atRest file ctrl).Honest j) :
    (State.rest j (.atRest file ctrl)).Safe j := by
  refine rest (Disk.sound_atRest file ctrl) hhonest ?_
  by_cases hlen : file.length = j.total
  · exact .inl hlen
  · exact .inr fun hmem => hlen (List.mem_singleton.mp hmem).symm

/-- **A crash** leaves what was durable. -/
theorem crash (h : s.Safe j) (hcut : s.cut = false) {file : List UInt8}
    (hleave : s.disk.CanLeave file) : (State.rest j (.atRest file s.disk.ctrl)).Safe j := by
  refine rest_atRest fun b hload hlen idx hidx p hp => ?_
  have hload : j.load s.disk.ctrl = some b := hload
  have hlen : file.length = j.total := hlen
  have hlength : s.disk.file.length = j.total := by
    cases hopen : s.main.isOpen with
    | true => exact h.length hopen
    | false =>
      rcases h.apart hopen (by rw [hload]; rfl) with ⟨-, hsame⟩ | ⟨-, hnot⟩
      · exact hsame
      · exact absurd (hlen ▸ hleave.1) hnot
  have hkeeps := h.honest hcut b hload hlength idx hidx p hp
  obtain ⟨v, hv⟩ := Job.content_eq_some hp.lt_total
  rcases hleave.2 p (hlength.symm ▸ hp.lt_total) with hnone | hsame
  · cases hnone.symm.trans (hkeeps.trans hv)
  · exact hsame.trans hkeeps

/-- **Every step** of a clear run keeps the invariant. -/
theorem step {s' : State} {e : Event} (h : s.Safe j) (hclear : Clear s e)
    (hstep : s.step j e = some s') : s'.Safe j := by
  cases e with
  | start =>
    simp only [State.step] at hstep
    split at hstep
    · rename_i hmain
      cases hstep
      exact h.start hmain
    · cases hstep
  | setLen =>
    simp only [State.step] at hstep
    split at hstep
    · rename_i hmain
      cases hstep
      exact h.cut_target hmain
    · rename_i hmain
      cases hstep
      exact h.grow_target hmain
    · cases hstep
  | giveUp =>
    simp only [State.step] at hstep
    split at hstep
    · rename_i hmain
      cases hstep
      exact h.leave (by rw [hmain]; rfl) hclear
    · rename_i hmain
      cases hstep
      exact h.leave (by rw [hmain]; rfl) hclear
    · rename_i hmain
      cases hstep
      exact h.leave (by rw [hmain]; rfl) hclear
    · rename_i hmain
      cases hstep
      exact h.leave (by rw [hmain]; rfl) hclear
    · cases hstep
  | begin =>
    simp only [State.step] at hstep
    split at hstep
    · rename_i hmain
      cases hstep
      exact h.begin hmain
    · cases hstep
  | spawn n =>
    simp only [State.step] at hstep
    split at hstep
    · rename_i hmain
      cases hstep
      exact h.spawn hmain.1 hmain.2.1
    · cases hstep
  | act i a => exact h.act hstep
  | stale k n =>
    obtain ⟨r, hr, hwrite⟩ := Option.bind_eq_some_iff.mp hstep
    split at hwrite
    · rename_i hn
      cases hwrite
      exact h.write_on hr hn.2
    · cases hwrite
  | save =>
    simp only [State.step] at hstep
    split at hstep
    · rename_i hmain
      cases hstep
      have hopen : s.main.isOpen = true := by rw [hmain]; rfl
      exact h.move hopen rfl nofun (by rw [hmain]; rfl)
        ⟨h.bitmap, h.has hopen⟩ nofun
    · cases hstep
  | stop =>
    simp only [State.step] at hstep
    split at hstep
    · rename_i hmain
      cases hstep
      have hopen : s.main.isOpen = true := by rw [hmain.1]; rfl
      exact h.join hmain.1 rfl nofun rfl ⟨h.bitmap, h.has hopen⟩ hmain.2
        nofun
    · cases hstep
  | fsync =>
    have hfits := h.main
    simp only [State.step] at hstep
    split at hstep
    · rename_i b goOn hmain
      cases hstep
      rw [hmain] at hfits
      refine h.move (by rw [hmain]; rfl) rfl nofun ?_
        ⟨hfits.1, fun idx hidx => ⟨hfits.2 idx hidx, hfits.2 idx hidx⟩⟩ nofun
      rw [hmain]
      cases goOn <;> rfl
    · rename_i b data goOn hmain
      cases hstep
      rw [hmain] at hfits
      have hopen : s.main.isOpen = true := by rw [hmain]; rfl
      have hgrown : ({ s with disk := s.disk.sync data } : State).Safe j :=
        h.grow (Disk.grows_sync h.disk data) fun hclosed => by cases hopen.symm.trans hclosed
      refine hgrown.move hopen rfl nofun ?_
        ⟨hfits.1, fun idx hidx => Disk.keeps_sync (hfits.2 idx hidx).1 (hfits.2 idx hidx).2⟩
        nofun
      show _ = s.main.works
      rw [hmain]
      cases goOn <;> rfl
    · cases hstep
  | rename =>
    simp only [State.step] at hstep
    split at hstep
    · rename_i b goOn hmain
      cases hstep
      refine (h.rename hmain).go_on ?_ ?_ fun _ => rfl
      · show s.main.isOpen = true
        rw [hmain]
        rfl
      · show s.main.works = goOn
        rw [hmain]
        cases goOn <;> rfl
    · cases hstep
  | saveFails =>
    simp only [State.step] at hstep
    split at hstep
    · rename_i b goOn hmain
      cases hstep
      refine h.go_on (by rw [hmain]; rfl) ?_ fun hstop => ?_
      · rw [hmain]
        cases goOn <;> rfl
      · simpa only [Clear, hmain, hstop] using hclear
    · rename_i b data goOn hmain
      cases hstep
      refine h.go_on (by rw [hmain]; rfl) ?_ fun hstop => ?_
      · rw [hmain]
        cases goOn <;> rfl
      · simpa only [Clear, hmain, hstop] using hclear
    · rename_i b goOn hmain
      cases hstep
      refine h.go_on (by rw [hmain]; rfl) ?_ fun hstop => ?_
      · rw [hmain]
        cases goOn <;> rfl
      · simpa only [Clear, hmain, hstop] using hclear
    · cases hstep
  | complete =>
    simp only [State.step] at hstep
    split at hstep
    · rename_i hmain
      cases hstep
      exact h.join hmain.1 rfl nofun rfl trivial
        (fun w hw => .inl (hmain.2 w hw)) fun _ => h.all_done hmain.1 hmain.2
    · cases hstep
  | finish =>
    simp only [State.step] at hstep
    split at hstep
    · rename_i hmain
      cases hstep
      exact h.finish hmain
    · cases hstep
  | remove ok =>
    simp only [State.step] at hstep
    split at hstep
    · rename_i hmain
      cases hstep
      exact h.remove hmain hclear
    · cases hstep
  | crash file =>
    simp only [State.step] at hstep
    split at hstep
    · rename_i hleave
      cases hstep
      exact h.crash hclear hleave
    · cases hstep

end State.Safe

/-- **SFTP downloads are right on clear runs**, from any leftover: a control file that is taken over
at once has to tell the truth about the target. -/
theorem right_of_clear_run {file : List UInt8} {ctrl : Option Content} {es : List Event}
    (hhonest : (Disk.atRest file ctrl).Honest j)
    (hclear : Along (State.step j) Clear (.rest j (.atRest file ctrl)) es) :
    Everywhere (State.step j) (State.Right j) (.rest j (.atRest file ctrl)) es :=
  everywhere_of_along (J := State.Safe j) (fun _ h => h.right)
    (fun _ _ _ h hc hs => h.step hc hs) (State.Safe.rest_atRest hhonest) hclear

/-- A remote file of one byte. -/
def smallJob : Job := { content := [7], remote := "/f", connections := 2 }

/-- A download over one channel, with a save and a crash in it, and its resumption. -/
def resumedRun : List Event :=
  [.start, .setLen, .setLen, .begin, .spawn 1, .save, .act 0 .take, .act 0 .look, .act 0 (.read 1),
    .act 0 .put, .act 0 (.write 1), .fsync, .fsync, .rename, .crash [7], .start, .begin, .spawn 1,
    .act 0 .take, .act 0 .look, .act 0 (.read 1), .act 0 .put, .act 0 (.write 1), .act 0 .written,
    .act 0 .mark, .act 0 .count, .act 0 .take, .complete, .finish, .remove true]

theorem right_resumedRun :
    Everywhere (State.step smallJob) (State.Right smallJob)
      (.rest smallJob (.atRest [] none)) resumedRun := by
  have hhonest : (Disk.atRest [] none).Honest smallJob := fun b hload => by cases hload
  exact right_of_clear_run hhonest (by decide +kernel)

/-- The control file of a target that is gone. -/
def leftover : CtrlFile := smallJob.ctrlFile ((Bitmap.new 1).mark 0).1

/-- The server cannot be reached at first. -/
def retriedRun : List Event :=
  [.start, .setLen, .setLen, .begin, .giveUp, .start, .begin, .finish, .remove true]

/-- The target is preallocated anew, the old control file stays; the retry takes it over, and
returns `Ok` for a target of zeros. -/
theorem not_right_retriedRun :
    ∃ t, run (State.step smallJob) (.rest smallJob (.atRest [] (some (.file leftover))))
        retriedRun = some t ∧ ¬ t.Right smallJob := by
  have hbad : (run (State.step smallJob) (.rest smallJob (.atRest [] (some (.file leftover))))
      retriedRun).map (fun t => decide (t.outcome = some true ∧ t.disk.file = [0])) =
        some true := by decide +kernel
  obtain ⟨t, ht, hdec⟩ := Option.map_eq_some_iff.mp hbad
  obtain ⟨hok, hfile⟩ := of_decide_eq_true hdec
  refine ⟨t, ht, fun hright => ?_⟩
  have hsame := (hright.ok hok).1
  rw [hfile] at hsame
  exact absurd hsame (by decide)

end XferRust.Sftp.Download
