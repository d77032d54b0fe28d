import XferRust.Engine.Slots

/-! # Tasks that seed

A task counts as seeding by its status.  The engine of a BT task has a flag of its own for it, and
the 1 Hz ticker of `drive_bt_download` carries the flag over to the status; but it stops at the tick
that has seen the last byte, and the engine looks for its own end only once a second, too.

The commands and `fill_slots` are steps as a whole; the ticker, the engine and the worker are cut
into the steps between which the others can come.  `seeding_exempt_iff` says when the slots work.
-/
namespace XferRust.Engine.Seeding
open StepRun

/-! ## The state -/

/-- How far the run of an engine is: `run`, with `run_seed_mode` in it, and the end of `run_task`.
A task that is no BT task never seeds. -/
inductive Phase
  | downloading | seeding | stopped
  /-- `run_task` has set the last status, and still has to take the task out of `active`. -/
  | ended
  | released
deriving DecidableEq

/-- Where the ticker is in its loop; from the read on with the progress that was read. -/
inductive Ticker
  | waiting
  | read (done total : Nat)
  /-- `is_seeding` has come back true. -/
  | saw (done total : Nat)
  | passed (done total : Nat)
  | ended
deriving DecidableEq

/-- A worker with its engine. -/
structure Driver (γ : Type) where
  gid : γ
  phase : Phase
  done : Nat
  total : Nat
  ticker : Ticker

structure Scheduler (γ : Type) where
  slots : Slots γ
  drivers : List (Driver γ)

/-- What a driver does. -/
inductive Act
  | progress (done total : Nat)
  /-- `self.seeding.store(true)` -/
  | enterSeeding
  | leaveSeeding
  | tick
  /-- The tick that finds that the files have to be chosen cancels the engine. -/
  | select
  | flag
  | status
  | last
  /-- The last status that `run_task` sets. -/
  | finish (st : Status)
  /-- `active.remove`; with the intent to start the task anew, if it is still there. -/
  | release (restart : Bool)

inductive Event (γ : Type)
  | add (gid : γ) (position : Option Nat)
  | setMax (n : Nat)
  | fill
  | pause (gid : γ)
  | unpause (gid : γ)
  | remove (gid : γ)
  | act (i : Nat) (a : Act)

section
variable {γ : Type} [DecidableEq γ]

def noSlots (max : Nat) : Slots γ :=
  { tasks := ∅, active := ∅, queue := [], maxConcurrent := max }

/-- The manager when it starts. -/
def Scheduler.init (max : Nat) : Scheduler γ := { slots := noSlots max, drivers := [] }

/-- The worker that `fill_slots` spawns. -/
def Driver.spawn (gid : γ) : Driver γ :=
  { gid, phase := .downloading, done := 0, total := 0, ticker := .waiting }

/-! ## Steps -/

/-- `set_status`, of a task that the table may have lost. -/
def setStatus (s : Slots γ) (gid : γ) (st : Status) : Slots γ :=
  if (s.tasks.lookup gid).isSome then { s with tasks := s.tasks.insert gid st } else s

/-- `pause`.  Of a running task it sets the intent and cancels. -/
def pause (s : Slots γ) (gid : γ) : Slots γ :=
  if s.Waits gid then
    setStatus { s with queue := s.queue.filter fun g => g ≠ gid } gid .paused
  else s

/-- `unpause` -/
def unpause (s : Slots γ) (gid : γ) : Slots γ :=
  match s.tasks.lookup gid with
  | some .paused | some .error =>
    setStatus { s with queue := s.queue ++ [gid] } gid .waiting
  | _ => s

/-- `remove_with_files`, `remove_download_result` and the results beyond `MAX_RESULTS`.  A running
task is removed by its worker. -/
def remove (s : Slots γ) (gid : γ) : Slots γ :=
  match s.tasks.lookup gid with
  | none | some .active | some .seeding => s
  | some st =>
    { s with
      tasks := s.tasks.erase gid
      queue := if st = .waiting then s.queue.filter fun g => g ≠ gid else s.queue }

/-- The end of `run_task`, with `inner` locked. -/
def release (s : Slots γ) (gid : γ) (restart : Bool) : Slots γ :=
  let s := { s with active := s.active.erase gid }
  match s.tasks.lookup gid with
  | some .removed => { s with tasks := s.tasks.erase gid }
  | some .waiting =>
    if restart then { s with queue := s.queue ++ [gid] } else setStatus s gid .paused
  | _ => s

/-- The engine runs. -/
def Phase.runs : Phase → Bool
  | .downloading | .seeding | .stopped => true
  | .ended | .released => false

/-- The statuses `run_task` sets at the end. -/
def isLast (st : Status) : Bool := st ≠ .active ∧ st ≠ .seeding

/-- One step of a driver; the other side of a tick may come after the end of the engine, for the
ticker is only asked to stop. -/
def Driver.act (d : Driver γ) (s : Slots γ) : Act → Option (Slots γ × Driver γ)
  | .progress done total => if d.phase.runs then some (s, { d with done, total }) else none
  | .enterSeeding => if d.phase = .downloading then some (s, { d with phase := .seeding }) else none
  | .leaveSeeding => if d.phase = .seeding then some (s, { d with phase := .stopped }) else none
  | .tick =>
    if d.phase.runs ∧ d.ticker = .waiting then
      some (s, { d with ticker := .read d.done d.total })
    else none
  | .select =>
    match d.ticker with
    | .read _ _ => some (s, { d with ticker := .ended })
    | _ => none
  | .flag =>
    match d.ticker with
    | .read done total =>
      some (s, { d with
        ticker := if d.phase = .seeding then .saw done total else .passed done total })
    | _ => none
  | .status =>
    match d.ticker with
    | .saw done total => some (setStatus s d.gid .seeding, { d with ticker := .passed done total })
    | _ => none
  | .last =>
    match d.ticker with
    | .passed done total =>
      some (s, { d with ticker := if total ≤ done ∧ 0 < total then .ended else .waiting })
    | _ => none
  | .finish st =>
    if d.phase.runs ∧ isLast st then some (setStatus s d.gid st, { d with phase := .ended })
    else none
  | .release restart =>
    if d.phase = .ended then some (release s d.gid restart, { d with phase := .released }) else none

/-- A gid is drawn for every task. -/
def Scheduler.Fresh (s : Scheduler γ) (gid : γ) : Prop :=
  s.slots.tasks.lookup gid = none ∧ ∀ d ∈ s.drivers, d.gid ≠ gid

instance decidableFresh (s : Scheduler γ) (gid : γ) : Decidable (s.Fresh gid) :=
  inferInstanceAs (Decidable (_ ∧ _))

def Scheduler.add (s : Scheduler γ) (gid : γ) (position : Option Nat) : Scheduler γ :=
  { s with
    slots :=
      { s.slots with
        tasks := s.slots.tasks.insert gid .waiting
        queue :=
          match position with
          | some pos => s.slots.queue.insertIdx (min pos s.slots.queue.length) gid
          | none => s.slots.queue ++ [gid] } }

def Scheduler.fill (s : Scheduler γ) : Scheduler γ :=
  let r := fillSlots s.slots
  { slots := r.1, drivers := s.drivers ++ r.2.map fun p => Driver.spawn p.1 }

def Scheduler.step (s : Scheduler γ) : Event γ → Option (Scheduler γ)
  | .add gid position => if s.Fresh gid then some (s.add gid position) else none
  | .setMax n => some { s with slots := { s.slots with maxConcurrent := max n 1 } }
  | .fill => some s.fill
  | .pause gid => some { s with slots := pause s.slots gid }
  | .unpause gid => some { s with slots := unpause s.slots gid }
  | .remove gid => some { s with slots := remove s.slots gid }
  | .act i a =>
    (s.drivers[i]?).bind fun d =>
      (d.act s.slots a).map fun r => { slots := r.1, drivers := s.drivers.set i r.2 }

/-! ## What is asked for -/

def Scheduler.Seeds (s : Scheduler γ) (gid : γ) : Prop := s.slots.tasks.lookup gid = some .seeding

instance decidableSeeds (s : Scheduler γ) (gid : γ) : Decidable (s.Seeds gid) :=
  inferInstanceAs (Decidable (_ = _))

/-- **Exempt**: a task whose engine seeds has the status, or a ticker that will see to it. -/
def Scheduler.Exempt (s : Scheduler γ) : Prop :=
  ∀ d ∈ s.drivers, d.phase = .seeding → s.Seeds d.gid ∨ d.ticker ≠ .ended

instance decidableExempt (s : Scheduler γ) : Decidable s.Exempt :=
  inferInstanceAs (Decidable (∀ d ∈ s.drivers, d.phase = .seeding →
    s.Seeds d.gid ∨ d.ticker ≠ .ended))

/-- `fill_slots` leaves no task waiting beside a free slot, and starts none beyond the limit. -/
def FillsSlots (s : Scheduler γ) : Event γ → Prop
  | .fill => (fillSlots s.slots).1.Filled ∧
      ∀ p ∈ (fillSlots s.slots).2, p.2 < s.slots.maxConcurrent
  | _ => True

/-- The tasks that seed do not take the slots of those that wait. -/
def Roomy (s : Scheduler γ) : Event γ → Prop
  | .fill => s.slots.Roomy s.slots.queue ∨
      s.slots.maxConcurrent ≤ s.slots.downloading + (s.slots.maxConcurrent - s.slots.active.card)
  | _ => True

/-- The ticker does not stop before the engine seeds, or while the status is not set. -/
def Scheduler.Watches (s : Scheduler γ) (d : Driver γ) : Act → Prop
  | .enterSeeding => s.Seeds d.gid ∨ d.ticker ≠ .ended
  | .select => d.phase = .seeding → s.Seeds d.gid
  | .last => d.phase = .seeding →
      s.Seeds d.gid ∨ ∀ done total, d.ticker = .passed done total → done < total ∨ total = 0
  | _ => True

def Watched (s : Scheduler γ) : Event γ → Prop
  | .act i a => ∀ d, s.drivers[i]? = some d → s.Watches d a
  | _ => True

/-- **Clear**: there is room beside all active tasks, or those that seed are not in the way; and the
ticker outlasts the download. -/
def Clear (s : Scheduler γ) (e : Event γ) : Prop := Roomy s e ∧ Watched s e

/-! ## The statuses of running tasks -/

/-- A worker runs the task. -/
def Running (s : Slots γ) (g : γ) : Prop :=
  s.tasks.lookup g = some .active ∨ s.tasks.lookup g = some .seeding

variable {g : γ}

theorem Running.ne {s : Slots γ} {gid : γ} {st : Status} (h : Running s g)
    (hst : s.tasks.lookup gid = some st) (hne : st ≠ .active ∧ st ≠ .seeding) : g ≠ gid := by
  rintro rfl
  rcases h with h | h
  · exact hne.1 (Option.some.inj (hst.symm.trans h))
  · exact hne.2 (Option.some.inj (hst.symm.trans h))

theorem lookup_setStatus (s : Slots γ) (gid g : γ) (st : Status) :
    (setStatus s gid st).tasks.lookup g =
      if g = gid ∧ (s.tasks.lookup gid).isSome then some st else s.tasks.lookup g := by
  unfold setStatus
  split
  · rename_i hsome
    show (s.tasks.insert gid st).lookup g = _
    rw [AList.lookup_insert_eq]
    simp only [hsome, and_true]
  · rename_i hnone
    rw [if_neg fun hboth => hnone hboth.2]

theorem lookup_setStatus_of_ne (s : Slots γ) {gid : γ} (st : Status) (hne : g ≠ gid) :
    (setStatus s gid st).tasks.lookup g = s.tasks.lookup g := by
  rw [lookup_setStatus, if_neg fun hboth => hne hboth.1]

theorem lookup_setStatus_of_running {s : Slots γ} (st : Status) (h : Running s g) :
    (setStatus s g st).tasks.lookup g = some st := by
  have hsome : (s.tasks.lookup g).isSome = true := by
    rcases h with h | h
    · rw [h]
      rfl
    · rw [h]
      rfl
  rw [lookup_setStatus, if_pos ⟨rfl, hsome⟩]

variable (gid : γ)

theorem lookup_pause {s : Slots γ} (h : Running s g) :
    (pause s gid).tasks.lookup g = s.tasks.lookup g := by
  unfold pause
  split
  · rename_i hwaits
    exact lookup_setStatus_of_ne _ _ (h.ne hwaits (by decide))
  · rfl

theorem lookup_unpause {s : Slots γ} (h : Running s g) :
    (unpause s gid).tasks.lookup g = s.tasks.lookup g := by
  unfold unpause
  split
  · rename_i hst
    exact lookup_setStatus_of_ne _ _ (h.ne hst (by decide))
  · rename_i hst
    exact lookup_setStatus_of_ne _ _ (h.ne hst (by decide))
  · rfl

theorem lookup_remove {s : Slots γ} (h : Running s g) :
    (remove s gid).tasks.lookup g = s.tasks.lookup g := by
  unfold remove
  split
  · rfl
  · rfl
  · rfl
  · rename_i st hactive hseeding hst
    have hne : g ≠ gid := h.ne hst
      ⟨fun heq => hactive heq, fun heq => hseeding heq⟩
    exact AList.lookup_erase_ne hne

theorem lookup_release {s : Slots γ} (restart : Bool) (h : Running s g) :
    (release s gid restart).tasks.lookup g = s.tasks.lookup g := by
  unfold release
  dsimp only
  split
  · rename_i hst
    exact AList.lookup_erase_ne (h.ne hst (by decide))
  · rename_i hst
    split
    · rfl
    · exact lookup_setStatus_of_ne _ _ (h.ne hst (by decide))
  · rfl

/-! ## Steps of a driver -/

variable {d d' : Driver γ} {a : Act}

theorem Driver.act_gid {s s' : Slots γ} (h : d.act s a = some (s', d')) : d'.gid = d.gid := by
  cases a <;> simp only [Driver.act] at h <;> split at h <;> cases h <;> rfl

/-- A step brings no engine back. -/
theorem Driver.act_runs {s s' : Slots γ} (h : d.act s a = some (s', d'))
    (hruns : d'.phase.runs = true) : d.phase.runs = true := by
  cases a with
  | enterSeeding | leaveSeeding =>
    simp only [Driver.act] at h
    split at h
    · rename_i hphase
      rw [hphase]
      rfl
    · cases h
  | finish st | release restart =>
    simp only [Driver.act] at h
    split at h
    · cases h
      cases hruns
    · cases h
  | progress done total | tick | select | flag | status | last =>
    simp only [Driver.act] at h
    split at h
    · cases h
      exact hruns
    · cases h

/-- What a step does to the status of a running task: if it is not the end of that very run, the
status stays or becomes `Seeding`. -/
theorem Driver.act_lookup {s s' : Slots γ} (h : d.act s a = some (s', d')) (hrun : Running s g)
    (hown : g = d.gid → d.phase.runs = true → d'.phase.runs = true) :
    s'.tasks.lookup g = s.tasks.lookup g ∨ s'.tasks.lookup g = some .seeding := by
  cases a with
  | status =>
    simp only [Driver.act] at h
    split at h
    · cases h
      by_cases hg : g = d.gid
      · subst hg
        exact .inr (lookup_setStatus_of_running _ hrun)
      · exact .inl (lookup_setStatus_of_ne _ _ hg)
    · cases h
  | finish st =>
    simp only [Driver.act] at h
    split at h
    · rename_i hends
      cases h
      refine .inl (lookup_setStatus_of_ne _ _ fun hg => ?_)
      cases hown hg hends.1
    · cases h
  | release restart =>
    simp only [Driver.act] at h
    split at h
    · cases h
      exact .inl (lookup_release _ _ hrun)
    · cases h
  | progress done total | enterSeeding | leaveSeeding | tick | select | flag | last =>
    simp only [Driver.act] at h
    split at h
    · cases h
      exact .inl rfl
    · cases h

/-! ## What every step keeps -/

/-- A running worker has a task that is active or seeds, and no other running worker has it. -/
structure Scheduler.Sound (s : Scheduler γ) : Prop where
  fit : ∀ (i : Nat) (d : Driver γ), s.drivers[i]? = some d → d.phase.runs = true →
    Running s.slots d.gid
  alone : ∀ (i j : Nat) (d d' : Driver γ), s.drivers[i]? = some d → s.drivers[j]? = some d' →
    d.phase.runs = true → d'.phase.runs = true → d.gid = d'.gid → i = j

variable {s : Scheduler γ} {slots : Slots γ}

/-- Commands leave the statuses of running tasks alone. -/
theorem Scheduler.Sound.keep (h : s.Sound)
    (hkeep : ∀ g, Running s.slots g → slots.tasks.lookup g = s.slots.tasks.lookup g) :
    ({ s with slots } : Scheduler γ).Sound where
  fit := by
    intro i d hi hruns
    have hrun := h.fit i d hi hruns
    show slots.tasks.lookup d.gid = _ ∨ slots.tasks.lookup d.gid = _
    rw [hkeep d.gid hrun]
    exact hrun
  alone := h.alone

variable {i : Nat}

theorem Scheduler.Sound.act (h : s.Sound) (hi : s.drivers[i]? = some d)
    (hact : d.act s.slots a = some (slots, d')) :
    ({ slots, drivers := s.drivers.set i d' } : Scheduler γ).Sound := by
  have hlt : i < s.drivers.length := (List.getElem?_eq_some_iff.mp hi).1
  -- what is found at an index runs there before the step, too
  have hbefore : ∀ (j : Nat) (x : Driver γ), (s.drivers.set i d')[j]? = some x →
      x.phase.runs = true → ∃ y, s.drivers[j]? = some y ∧ y.phase.runs = true ∧ y.gid = x.gid := by
    intro j x hj hruns
    rw [List.getElem?_set, if_pos hlt] at hj
    split at hj
    · rename_i hij
      obtain rfl : d' = x := Option.some.inj hj
      exact ⟨d, hij ▸ hi, Driver.act_runs hact hruns, (Driver.act_gid hact).symm⟩
    · exact ⟨x, hj, hruns, rfl⟩
  constructor
  · intro j x hj hruns
    obtain ⟨y, hy, hyruns, hgid⟩ := hbefore j x hj hruns
    have hrun : Running s.slots x.gid := hgid ▸ h.fit j y hy hyruns
    have hlook := Driver.act_lookup hact hrun (fun hg hdruns => by
      obtain rfl : i = j := h.alone i j d y hi hy hdruns hyruns (hg.symm.trans hgid.symm)
      rw [List.getElem?_set_self hlt] at hj
      exact (Option.some.inj hj) ▸ hruns)
    rcases hlook with hsame | hseeding
    · show slots.tasks.lookup x.gid = _ ∨ slots.tasks.lookup x.gid = _
      rw [hsame]
      exact hrun
    · exact .inr hseeding
  · intro j k x x' hj hk hruns hruns' hgid
    obtain ⟨y, hy, hyruns, hygid⟩ := hbefore j x hj hruns
    obtain ⟨y', hy', hyruns', hygid'⟩ := hbefore k x' hk hruns'
    exact h.alone j k y y' hy hy' hyruns hyruns' (hygid.trans (hgid.trans hygid'.symm))

/-- What `fill_slots` starts does not run yet. -/
theorem lookup_fill {s : Slots γ} (h : Running s g) :
    (fillSlots s).1.tasks.lookup g = s.tasks.lookup g := by
  rw [fillSlots, lookup_fillFrom, if_neg]
  intro hmem
  obtain ⟨p, hp, rfl⟩ := List.mem_map.mp hmem
  exact h.ne (of_mem_fillFrom s _ p hp).1 (by decide) rfl

theorem Scheduler.Sound.fill (h : s.Sound) : s.fill.Sound := by
  -- a driver is an old one or has just been spawned
  have hfind : ∀ (i : Nat) (d : Driver γ), s.fill.drivers[i]? = some d → s.drivers[i]? = some d ∨
      s.drivers.length ≤ i ∧ ∃ gid, ((fillSlots s.slots).2.map Prod.fst)[i - s.drivers.length]? =
        some gid ∧ d = Driver.spawn gid := by
    intro i d hi
    by_cases hlt : i < s.drivers.length
    · exact .inl ((List.getElem?_append_left hlt).symm.trans hi)
    · have hle := Nat.le_of_not_lt hlt
      rw [Scheduler.fill, List.getElem?_append_right hle, List.getElem?_map] at hi
      obtain ⟨p, hp, rfl⟩ := Option.map_eq_some_iff.mp hi
      refine .inr ⟨hle, p.1, ?_, rfl⟩
      rw [List.getElem?_map, hp]
      rfl
  have hwaits : ∀ (i : Nat) gid, ((fillSlots s.slots).2.map Prod.fst)[i]? = some gid →
      s.slots.Waits gid := by
    intro i gid hi
    obtain ⟨p, hp, rfl⟩ := List.mem_map.mp (List.mem_of_getElem? hi)
    exact (of_mem_fillFrom s.slots _ p hp).1
  constructor
  · intro i d hi hruns
    rcases hfind i d hi with hold | ⟨-, gid, hgid, rfl⟩
    · have hrun := h.fit i d hold hruns
      show (fillSlots s.slots).1.tasks.lookup d.gid = _ ∨
        (fillSlots s.slots).1.tasks.lookup d.gid = _
      rw [lookup_fill hrun]
      exact hrun
    · left
      show (fillSlots s.slots).1.tasks.lookup gid = some .active
      rw [fillSlots, lookup_fillFrom]
      exact if_pos (List.mem_of_getElem? hgid)
  · intro i j d d' hi hj hruns hruns' hsame
    rcases hfind i d hi with hold | ⟨hle, gid, hgid, rfl⟩
    · rcases hfind j d' hj with hold' | ⟨-, gid', hgid', rfl⟩
      · exact h.alone i j d d' hold hold' hruns hruns' hsame
      · exact absurd hsame ((h.fit i d hold hruns).ne (hwaits _ _ hgid') (by decide))
    · rcases hfind j d' hj with hold' | ⟨hle', gid', hgid', rfl⟩
      · exact absurd hsame.symm ((h.fit j d' hold' hruns').ne (hwaits _ _ hgid) (by decide))
      · obtain rfl : gid = gid' := hsame
        have hlt := (List.getElem?_eq_some_iff.mp hgid).1
        have hsub := (List.getElem?_inj hlt (nodup_fillFrom s.slots _)).mp (hgid.trans hgid'.symm)
        omega

variable {s' : Scheduler γ} {e : Event γ}

/-- **What a step does**: a command leaves the drivers and the statuses of running tasks alone. -/
theorem step_cases (h : s.step e = some s') :
    ((∀ i a, e ≠ .act i a) ∧ ∃ slots, s' = { s with slots } ∧
      ∀ g, Running s.slots g → slots.tasks.lookup g = s.slots.tasks.lookup g) ∨
    (e = .fill ∧ s' = s.fill) ∨
    ∃ i a d d' slots, e = .act i a ∧ s.drivers[i]? = some d ∧
      d.act s.slots a = some (slots, d') ∧ s' = { slots, drivers := s.drivers.set i d' } := by
  cases e with
  | add gid position =>
    simp only [Scheduler.step] at h
    split at h
    · rename_i hfresh
      cases h
      refine .inl ⟨fun i a he => (by cases he), _, rfl, fun g hrun => ?_⟩
      refine AList.lookup_insert_ne ?_
      rintro rfl
      rcases hrun with hrun | hrun
      · cases hfresh.1.symm.trans hrun
      · cases hfresh.1.symm.trans hrun
    · cases h
  | setMax n =>
    cases h
    exact .inl ⟨fun i a he => (by cases he), _, rfl, fun g _ => rfl⟩
  | fill =>
    cases h
    exact .inr (.inl ⟨rfl, rfl⟩)
  | pause gid =>
    cases h
    exact .inl ⟨fun i a he => (by cases he), _, rfl, fun g => lookup_pause gid⟩
  | unpause gid =>
    cases h
    exact .inl ⟨fun i a he => (by cases he), _, rfl, fun g => lookup_unpause gid⟩
  | remove gid =>
    cases h
    exact .inl ⟨fun i a he => (by cases he), _, rfl, fun g => lookup_remove gid⟩
  | act i a =>
    obtain ⟨d, hd, hact⟩ := Option.bind_eq_some_iff.mp h
    obtain ⟨⟨slots, d'⟩, hr, rfl⟩ := Option.map_eq_some_iff.mp hact
    exact .inr (.inr ⟨i, a, d, d', slots, rfl, hd, hr, rfl⟩)

theorem Scheduler.Sound.step (h : s.Sound) (hstep : s.step e = some s') : s'.Sound := by
  rcases step_cases hstep with ⟨-, slots, rfl, hkeep⟩ | ⟨-, rfl⟩ |
    ⟨i, a, d, d', slots, -, hi, hact, rfl⟩
  · exact h.keep hkeep
  · exact h.fill
  · exact h.act hi hact

/-- A task that has the status keeps it as long as its worker runs. -/
theorem Scheduler.Sound.seeds_act (h : s.Sound) {j : Nat} {x : Driver γ}
    (hi : s.drivers[i]? = some d) (hact : d.act s.slots a = some (slots, d'))
    (hj : (s.drivers.set i d')[j]? = some x) (hruns : x.phase.runs = true) (hseeds : s.Seeds x.gid) :
    slots.tasks.lookup x.gid = some .seeding := by
  have hlt : i < s.drivers.length := (List.getElem?_eq_some_iff.mp hi).1
  have hlook := Driver.act_lookup hact (.inr hseeds) (fun hg hdruns => by
    rw [List.getElem?_set, if_pos hlt] at hj
    split at hj
    · obtain rfl : d' = x := Option.some.inj hj
      exact hruns
    · rename_i hne
      exact absurd (h.alone i j d x hi hj hdruns hruns hg.symm) hne)
  rcases hlook with hsame | hseeding
  · exact hsame.trans hseeds
  · exact hseeding

/-! ## The ticker and the flag -/

/-- Of the driver that takes the step: the ticker outlasts the download. -/
theorem Driver.act_exempt (hact : d.act s.slots a = some (slots, d')) (hwatch : s.Watches d a)
    (hexempt : d.phase = .seeding → s.Seeds d.gid ∨ d.ticker ≠ .ended)
    (hphase : d'.phase = .seeding) : s.Seeds d.gid ∨ d'.ticker ≠ .ended := by
  cases a with
  | progress done total =>
    simp only [Driver.act] at hact
    split at hact
    · cases hact
      exact hexempt hphase
    · cases hact
  | tick | status =>
    simp only [Driver.act] at hact
    split at hact
    · cases hact
      exact .inr nofun
    · cases hact
  | enterSeeding =>
    simp only [Driver.act] at hact
    split at hact
    · cases hact
      exact hwatch
    · cases hact
  | select =>
    simp only [Driver.act] at hact
    split at hact
    · cases hact
      exact .inl (hwatch hphase)
    · cases hact
  | flag =>
    simp only [Driver.act] at hact
    split at hact
    · cases hact
      refine .inr fun hend => ?_
      cases (if_pos hphase).symm.trans hend
    · cases hact
  | last =>
    simp only [Driver.act] at hact
    split at hact
    · rename_i done total hticker
      cases hact
      rcases hwatch hphase with hseeds | hless
      · exact .inl hseeds
      · refine .inr ?_
        dsimp only
        rw [if_neg]
        · decide
        · intro hend
          have hlate := hless done total hticker
          omega
    · cases hact
  | leaveSeeding | finish st | release restart =>
    simp only [Driver.act] at hact
    split at hact
    · cases hact
      cases hphase
    · cases hact

theorem Scheduler.Exempt.step (h : s.Exempt) (hsound : s.Sound) (hwatch : Watched s e)
    (hstep : s.step e = some s') : s'.Exempt := by
  rcases step_cases hstep with ⟨-, slots, rfl, hkeep⟩ | ⟨-, rfl⟩ |
    ⟨i, a, d, d', slots, rfl, hi, hact, rfl⟩
  · intro d hd hphase
    refine (h d hd hphase).imp_left fun hseeds => ?_
    exact (hkeep d.gid (.inr hseeds)).trans hseeds
  · intro d hd hphase
    rcases List.mem_append.mp hd with hold | hnew
    · refine (h d hold hphase).imp_left fun hseeds => ?_
      exact (lookup_fill (.inr hseeds)).trans hseeds
    · obtain ⟨p, -, rfl⟩ := List.mem_map.mp hnew
      cases hphase
  · intro x hx hphase
    obtain ⟨j, hj⟩ := List.getElem?_of_mem hx
    have hruns : x.phase.runs = true := by
      rw [hphase]
      rfl
    have hbefore : s.Seeds x.gid ∨ x.ticker ≠ .ended := by
      by_cases hij : i = j
      · subst hij
        rw [List.getElem?_set_self (List.getElem?_eq_some_iff.mp hi).1] at hj
        obtain rfl : d' = x := Option.some.inj hj
        rw [Driver.act_gid hact]
        exact Driver.act_exempt hact (hwatch d hi) (h d (List.mem_of_getElem? hi)) hphase
      · rw [List.getElem?_set_ne hij] at hj
        exact h x (List.mem_of_getElem? hj) hphase
    exact hbefore.imp_left fun hseeds => hsound.seeds_act hi hact hj hruns hseeds

/-- A ticker that stops too early leaves the status as it is. -/
theorem Driver.act_breaks (hact : d.act s.slots a = some (slots, d')) (hwatch : ¬ s.Watches d a) :
    d'.phase = .seeding ∧ d'.ticker = .ended ∧ slots = s.slots ∧ ¬ s.Seeds d.gid := by
  cases a with
  | enterSeeding =>
    obtain ⟨hseeds, hticker⟩ := not_or.mp hwatch
    simp only [Driver.act] at hact
    split at hact
    · cases hact
      exact ⟨rfl, not_not.mp hticker, rfl, hseeds⟩
    · cases hact
  | select =>
    obtain ⟨hphase, hseeds⟩ := Classical.not_imp.mp hwatch
    simp only [Driver.act] at hact
    split at hact
    · cases hact
      exact ⟨hphase, rfl, rfl, hseeds⟩
    · cases hact
  | last =>
    obtain ⟨hphase, hnot⟩ := Classical.not_imp.mp hwatch
    obtain ⟨hseeds, hless⟩ := not_or.mp hnot
    simp only [Driver.act] at hact
    split at hact
    · rename_i done total hticker
      cases hact
      refine ⟨hphase, if_pos ?_, rfl, hseeds⟩
      by_contra hmore
      refine hless fun done' total' hticker' => ?_
      cases hticker.symm.trans hticker'
      omega
    · cases hact
  | progress done total | leaveSeeding | tick | flag | status | finish st | release restart =>
    exact absurd trivial hwatch

theorem Scheduler.not_exempt_step (hwatch : ¬ Watched s e) (hstep : s.step e = some s') :
    ¬ s'.Exempt := by
  rcases step_cases hstep with ⟨hother, -⟩ | ⟨rfl, -⟩ | ⟨i, a, d, d', slots, rfl, hi, hact, rfl⟩
  · cases e with
    | act i a => exact absurd rfl (hother i a)
    | add | setMax | fill | pause | unpause | remove => exact absurd trivial hwatch
  · exact absurd trivial hwatch
  · have hnot : ¬ s.Watches d a := fun h => hwatch fun x hx => by
      obtain rfl : d = x := Option.some.inj (hi.symm.trans hx)
      exact h
    obtain ⟨hphase, hticker, rfl, hseeds⟩ := Driver.act_breaks hact hnot
    have hmem : d' ∈ s.drivers.set i d' :=
      List.mem_set (List.getElem?_eq_some_iff.mp hi).1 d'
    intro hexempt
    rcases hexempt d' hmem hphase with h | h
    · exact hseeds (Driver.act_gid hact ▸ h)
    · exact h hticker

theorem sound_init (max : Nat) : (Scheduler.init max : Scheduler γ).Sound where
  fit := by
    intro i d hi
    simp [Scheduler.init] at hi
  alone := by
    intro i j d d' hi
    simp [Scheduler.init] at hi

theorem exempt_init (max : Nat) : (Scheduler.init max : Scheduler γ).Exempt := by
  intro d hd
  cases hd

/-! ## A tick that has seen the flag -/

def Ticker.isSaw : Ticker → Bool
  | .saw _ _ => true
  | _ => false

/-- The engine of the driver has begun to seed; while it seeds, the task has the status, or the
ticker is about to set it. -/
def Scheduler.Noticed (s : Scheduler γ) (i : Nat) (soon : Ticker → Bool) : Prop :=
  ∃ d, s.drivers[i]? = some d ∧ d.phase ≠ .downloading ∧
    (d.phase = .seeding → s.Seeds d.gid ∨ soon d.ticker = true)

variable {soon : Ticker → Bool} {es : List (Event γ)} {max : Nat}

/-- Of the driver itself: what is about to be set is set by the next step of the ticker. -/
theorem Driver.act_noticed (hsoon : ∀ t, soon t = true → t.isSaw = true)
    (hact : d.act s.slots a = some (slots, d')) (hbegun : d.phase ≠ .downloading)
    (hsound : d.phase.runs = true → Running s.slots d.gid)
    (hnotice : d.phase = .seeding → s.Seeds d.gid ∨ soon d.ticker = true) :
    d'.phase ≠ .downloading ∧ (d'.phase = .seeding →
      s.Seeds d.gid ∨ slots.tasks.lookup d.gid = some .seeding ∨ soon d'.ticker = true) := by
  cases a with
  | progress done total =>
    simp only [Driver.act] at hact
    split at hact
    · cases hact
      exact ⟨hbegun, fun hphase => (hnotice hphase).imp_right .inr⟩
    · cases hact
  | enterSeeding =>
    simp only [Driver.act] at hact
    split at hact
    · rename_i hphase
      exact absurd hphase hbegun
    · cases hact
  | leaveSeeding | finish st | release restart =>
    simp only [Driver.act] at hact
    split at hact
    · cases hact
      exact ⟨nofun, nofun⟩
    · cases hact
  | status =>
    simp only [Driver.act] at hact
    split at hact
    · cases hact
      refine ⟨hbegun, fun hphase => .inr (.inl ?_)⟩
      refine lookup_setStatus_of_running _ (hsound ?_)
      rw [show d.phase = .seeding from hphase]
      rfl
    · cases hact
  | tick =>
    simp only [Driver.act] at hact
    split at hact
    · rename_i hwaits
      cases hact
      refine ⟨hbegun, fun hphase => .inl ((hnotice hphase).resolve_right fun h => ?_)⟩
      have hsaw := hsoon _ h
      rw [hwaits.2] at hsaw
      cases hsaw
    · cases hact
  | select | flag | last =>
    simp only [Driver.act] at hact
    split at hact
    · rename_i hticker
      cases hact
      refine ⟨hbegun, fun hphase => .inl ((hnotice hphase).resolve_right fun h => ?_)⟩
      have hsaw := hsoon _ h
      rw [hticker] at hsaw
      cases hsaw
    · cases hact

theorem Scheduler.Noticed.step (hsoon : ∀ t, soon t = true → t.isSaw = true) (h : s.Noticed i soon)
    (hsound : s.Sound) (hstep : s.step e = some s') : s'.Noticed i soon := by
  obtain ⟨d, hi, hbegun, hnotice⟩ := h
  rcases step_cases hstep with ⟨-, slots, rfl, hkeep⟩ | ⟨-, rfl⟩ |
    ⟨j, a, x, x', slots, rfl, hj, hact, rfl⟩
  · refine ⟨d, hi, hbegun, fun hphase => (hnotice hphase).imp_left fun hseeds => ?_⟩
    exact (hkeep d.gid (.inr hseeds)).trans hseeds
  · refine ⟨d, (List.getElem?_append_left (List.getElem?_eq_some_iff.mp hi).1).trans hi, hbegun,
      fun hphase => (hnotice hphase).imp_left fun hseeds => ?_⟩
    exact (lookup_fill (.inr hseeds)).trans hseeds
  · have hlt := (List.getElem?_eq_some_iff.mp hj).1
    by_cases hij : j = i
    · subst hij
      obtain rfl : d = x := Option.some.inj (hi.symm.trans hj)
      have hx' : (s.drivers.set j x')[j]? = some x' := List.getElem?_set_self hlt
      obtain ⟨hbegun', hnotice'⟩ :=
        Driver.act_noticed hsoon hact hbegun (hsound.fit j d hj) hnotice
      refine ⟨x', hx', hbegun', fun hphase => ?_⟩
      have hruns : x'.phase.runs = true := by
        rw [hphase]
        rfl
      rcases hnotice' hphase with hseeds | hset | hsaw
      · rw [← Driver.act_gid hact] at hseeds
        exact .inl (hsound.seeds_act hj hact hx' hruns hseeds)
      · rw [← Driver.act_gid hact] at hset
        exact .inl hset
      · exact .inr hsaw
    · have hi' : (s.drivers.set j x')[i]? = some d := (List.getElem?_set_ne hij).trans hi
      refine ⟨d, hi', hbegun, fun hphase => (hnotice hphase).imp_left fun hseeds => ?_⟩
      refine hsound.seeds_act hj hact hi' ?_ hseeds
      rw [hphase]
      rfl

variable {t : Scheduler γ}

theorem noticed_run (hsoon : ∀ t, soon t = true → t.isSaw = true) (hsound : s.Sound)
    (h : s.Noticed i soon) (hrun : run Scheduler.step s es = some t) :
    t.Sound ∧ t.Noticed i soon := by
  have hkeep : ∀ (s : Scheduler γ) (e : Event γ) (s' : Scheduler γ),
      s.Sound ∧ s.Noticed i soon → True → s.step e = some s' → s'.Sound ∧ s'.Noticed i soon :=
    fun s e s' hs _ hstep => ⟨hs.1.step hstep, hs.2.step hsoon hs.1 hstep⟩
  exact run_invariant hkeep ⟨hsound, h⟩ (along_of_forall fun _ _ => trivial) hrun

/-- A tick that reads the flag of an engine that seeds will set the status. -/
theorem noticed_of_flag (hstep : s.step (.act i .flag) = some s') (hi : s.drivers[i]? = some d)
    (hphase : d.phase = .seeding) : s'.Noticed i Ticker.isSaw := by
  rcases step_cases hstep with ⟨hother, -⟩ | ⟨he, -⟩ | ⟨j, a, x, x', slots, he, hj, hact, rfl⟩
  · exact absurd rfl (hother i .flag)
  · cases he
  · cases he
    obtain rfl : d = x := Option.some.inj (hi.symm.trans hj)
    simp only [Driver.act] at hact
    split at hact
    · rename_i done total hticker
      cases hact
      refine ⟨_, List.getElem?_set_self (List.getElem?_eq_some_iff.mp hi).1, ?_,
        fun _ => .inr ?_⟩
      · intro h
        cases hphase.symm.trans h
      · dsimp only
        rw [if_pos hphase]
        rfl
    · cases hact

/-- The end of a tick comes after the status. -/
theorem noticed_of_last (h : s.Noticed i Ticker.isSaw) (hstep : s.step (.act i .last) = some s') :
    s.Noticed i fun _ => false := by
  obtain ⟨d, hi, hbegun, hnotice⟩ := h
  rcases step_cases hstep with ⟨hother, -⟩ | ⟨he, -⟩ | ⟨j, a, x, x', slots, he, hj, hact, -⟩
  · exact absurd rfl (hother i .last)
  · cases he
  · cases he
    obtain rfl : d = x := Option.some.inj (hi.symm.trans hj)
    refine ⟨d, hi, hbegun, fun hphase => .inl ((hnotice hphase).resolve_right fun hsaw => ?_)⟩
    simp only [Driver.act] at hact
    split at hact
    · rename_i hticker
      rw [hticker] at hsaw
      cases hsaw
    · cases hact

/-! ## Runs -/

theorem sound_run (hrun : run Scheduler.step (.init max) es = some t) : t.Sound :=
  run_invariant (fun _ _ _ h (_ : True) hstep => h.step hstep) (sound_init max)
    (along_of_forall fun _ _ => trivial) hrun

/-- **The limit**, and the slots: `fill_slots` goes beyond no limit, and leaves slots free exactly
if there is no room. -/
theorem fillsSlots_iff (s : Scheduler γ) (e : Event γ) : FillsSlots s e ↔ Roomy s e := by
  cases e with
  | fill =>
    have hfilled := filled_fillFrom_iff s.slots s.slots.queue
    exact ⟨fun h => hfilled.mp h.1,
      fun h => ⟨hfilled.mpr h, fun p hp => (of_mem_fillFrom s.slots _ p hp).2⟩⟩
  | add | setMax | pause | unpause | remove | act => exact Iff.rfl

/-- **The ticker**, exactly: it sees each engine that seeds, unless it has stopped before. -/
theorem exempt_iff_watched (hrun : run Scheduler.step (.init max) es = some t) :
    Everywhere Scheduler.step Scheduler.Exempt (.init max) es ↔
      Along Scheduler.step Watched (.init max) es :=
  everywhere_iff_along (J := fun s : Scheduler γ => s.Sound ∧ s.Exempt) (fun _ h => h.2)
    (fun _ _ _ h hwatch hstep => ⟨h.1.step hstep, h.2.step h.1 hwatch hstep⟩)
    (fun _ _ _ _ hwatch hstep => Scheduler.not_exempt_step hwatch hstep)
    ⟨sound_init max, exempt_init max⟩ hrun

/-- **A tick**: once a tick has read the flag of an engine that seeds, and come to its end, the task
has the status for as long as the engine seeds. -/
theorem seeds_of_tick {before mid after : List (Event γ)} {u : Scheduler γ}
    (hrun : run Scheduler.step (.init max) (before ++ .act i .flag :: (mid ++ .act i .last :: after))
      = some t) (hu : run Scheduler.step (.init max) before = some u) (hi : u.drivers[i]? = some d)
    (hphase : d.phase = .seeding) (hi' : t.drivers[i]? = some d') (hphase' : d'.phase = .seeding) :
    t.Seeds d'.gid := by
  obtain ⟨u', hu', hrest⟩ := run_append.mp hrun
  obtain rfl : u = u' := Option.some.inj (hu.symm.trans hu')
  obtain ⟨v, hflag, hrest⟩ := run_cons_eq_some.mp hrest
  obtain ⟨w, hmid, hrest⟩ := run_append.mp hrest
  obtain ⟨hwsound, hwnotice⟩ := noticed_run (fun _ h => h) ((sound_run hu).step hflag)
    (noticed_of_flag hflag hi hphase) hmid
  obtain ⟨w', hlast, -⟩ := run_cons_eq_some.mp hrest
  obtain ⟨-, x, hx, -, hseeds⟩ := noticed_run (fun _ h => (by cases h)) hwsound
    (noticed_of_last hwnotice hlast) hrest
  obtain rfl : d' = x := Option.some.inj (hi'.symm.trans hx)
  exact (hseeds hphase').resolve_right nofun

/-- **Tasks that seed take no slots**, exactly: on a run, every task that seeds is or will be
exempt, and every `fill_slots` fills the slots and keeps the limit, if and only if the run is clear.
On any run, a whole tick is enough for the status. -/
theorem seeding_exempt_iff {max : Nat} {es : List (Event γ)} {t : Scheduler γ}
    (hrun : run Scheduler.step (.init max) es = some t) :
    (Everywhere Scheduler.step Scheduler.Exempt (.init max) es ∧
        Along Scheduler.step FillsSlots (.init max) es ↔
      Along Scheduler.step Clear (.init max) es) ∧
    ∀ before mid after i u d d', es = before ++ .act i .flag :: (mid ++ .act i .last :: after) →
      run Scheduler.step (.init max) before = some u → u.drivers[i]? = some d →
      d.phase = .seeding → t.drivers[i]? = some d' → d'.phase = .seeding → t.Seeds d'.gid := by
  refine ⟨?_, ?_⟩
  · rw [exempt_iff_watched hrun]
    constructor
    · rintro ⟨hwatch, hfill⟩
      exact (hfill.mono fun s e => (fillsSlots_iff s e).mp).and hwatch
    · intro hclear
      exact ⟨hclear.mono fun s e h => h.2,
        hclear.mono fun s e h => (fillsSlots_iff s e).mpr h.1⟩
  · rintro before mid after i u d d' rfl hu hi hphase hi' hphase'
    exact seeds_of_tick hrun hu hi hphase hi' hphase'

end

/-- A task that ends up seeding while another one waits. -/
def goodRun : List (Event Nat) :=
  [.add 1 none, .add 2 none, .fill, .act 0 (.progress 10 10), .act 0 .enterSeeding, .act 0 .tick,
    .act 0 .flag, .act 0 .status, .act 0 .last, .fill]

theorem exempt_goodRun :
    ∃ t, run Scheduler.step (.init 2) goodRun = some t ∧
      (Everywhere Scheduler.step Scheduler.Exempt (.init 2) goodRun ∧
          Along Scheduler.step FillsSlots (.init 2) goodRun ↔
        Along Scheduler.step Clear (.init 2) goodRun) := by
  have hsome : (run Scheduler.step (.init 2) goodRun).isSome = true := by decide +kernel
  obtain ⟨t, ht⟩ := Option.isSome_iff_exists.mp hsome
  exact ⟨t, ht, (seeding_exempt_iff ht).1⟩

/-- One slot: the task in it seeds, the other one waits. -/
def blockedRun : List (Event Nat) :=
  [.add 1 none, .fill, .act 0 (.progress 10 10), .act 0 .enterSeeding, .act 0 .tick, .act 0 .flag,
    .act 0 .status, .act 0 .last, .add 2 none, .fill]

/-- The ticker stops between the last byte and the flag. -/
def lateRun : List (Event Nat) :=
  [.add 1 none, .fill, .act 0 (.progress 10 10), .act 0 .tick, .act 0 .flag, .act 0 .last,
    .act 0 .enterSeeding]

/-- A task that seeds blocks the one that waits; and one that seeds is counted as a download for the
rest of its run. -/
theorem seeding_not_exempt :
    (∃ t : Scheduler Nat, run Scheduler.step (.init 1) blockedRun = some t ∧ ¬ t.slots.Filled) ∧
    ∃ t : Scheduler Nat, run Scheduler.step (.init 1) lateRun = some t ∧ ¬ t.Exempt := by
  refine ⟨?_, ?_⟩
  · have hbad : (run Scheduler.step (.init 1) blockedRun).map
        (fun t : Scheduler Nat => decide (2 ∈ t.slots.queue ∧ t.slots.Waits 2 ∧
          t.slots.downloading < t.slots.maxConcurrent)) = some true := by decide +kernel
    obtain ⟨t, ht, hdec⟩ := Option.map_eq_some_iff.mp hbad
    obtain ⟨hmem, hwaits, hlt⟩ := of_decide_eq_true hdec
    refine ⟨t, ht, ?_⟩
    rintro (hnone | hfull)
    · exact hnone 2 hmem hwaits
    · omega
  · have hbad : (run Scheduler.step (.init 1) lateRun).map
        (fun t : Scheduler Nat => decide t.Exempt) = some false := by decide +kernel
    obtain ⟨t, ht, hdec⟩ := Option.map_eq_some_iff.mp hbad
    exact ⟨t, ht, of_decide_eq_false hdec⟩

end XferRust.Engine.Seeding
