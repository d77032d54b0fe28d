import XferRust.Engine.Steps

/-! # One worker per task

Every command reads the status of its task first and acts later, so `pause` and `finish_removed`
may write a status under a worker that has started in between, and `fill_slots` may find a task
waiting again whose old worker is still there.  These two steps are the only ones that break the
rule that a task has one worker; both directions are proved, step by step.
-/
namespace XferRust.Engine
open Pool

/-- The worker is at work: started, and its final status not written. -/
def Worker.runs : Worker → Bool
  | .started | .spawned | .driving _ _ | .ended _ => true
  | _ => false

/-- The worker has taken its gid out of the active ones. -/
def Worker.cleans : Worker → Bool
  | .cleaning _ | .dropping | .checkingStatus _ | .checkingIntent | .restartIntent | .restartToken
  | .restartEnqueue | .pausing | .stopping _ => true
  | _ => false

/-- No worker is at work for a task in this status. -/
def Status.rests : Status → Bool
  | .paused | .complete | .error | .removed => true
  | _ => false

/-- The steps of a command that bring a task to rest. -/
def Caller.rests : Caller → Bool
  | .pauseStatus | .removedStatus _ => true
  | _ => false

namespace Manager

variable {G : Type} [DecidableEq G]

/-- No task has two workers; the active gids are those of the workers that have not cleaned up; no
worker is at work for a task that rests. -/
structure OneWorker (s : Manager G) : Prop where
  single : ∀ g, (s.task g).workers.length ≤ 1
  active : ∀ g, g ∈ s.active ↔ ∃ w ∈ (s.task g).workers, w.cleans = false
  busy : ∀ g, ∀ w ∈ (s.task g).workers, w.runs = true → (s.task g).status.rests = false

/-- The step is not one of the two that break the rule: `pause` or `finish_removed` writes its status
while a worker of the task is at work, or `fill_slots` starts a task whose gid is still active. -/
def Undisturbed (s : Manager G) : Event G → Prop
  | .caller gid i =>
    ∀ c ∈ (s.task gid).callers[i]?, c.rests = true → ∀ w ∈ (s.task gid).workers, w.runs = false
  | .fill =>
    s.sched = .head → ∀ gid ∈ s.queue.head?, gid ∈ s.tasks → (s.task gid).status = .waiting →
      s.active.length < s.maxConcurrent → gid ∉ s.active
  | _ => True

instance (s : Manager G) : DecidablePred s.Undisturbed
  | .caller gid i =>
    inferInstanceAs (Decidable (∀ c ∈ (s.task gid).callers[i]?, c.rests = true →
      ∀ w ∈ (s.task gid).workers, w.runs = false))
  | .fill =>
    inferInstanceAs (Decidable (s.sched = .head → ∀ gid ∈ s.queue.head?, gid ∈ s.tasks →
      (s.task gid).status = .waiting → s.active.length < s.maxConcurrent → gid ∉ s.active))
  | .add _ _ _ | .call _ _ | .worker _ _ | .driveEnds _ _ _ | .tick _ _ _ | .awaits _ _ => isTrue trivial

/-- The rule, with what the lock of `inner` keeps apart. -/
structure WorkersInv (s : Manager G) : Prop where
  rule : s.OneWorker
  sched : s.sched ≠ .idle → s.holder = some .sched
  cleaning : ∀ g, ∀ w ∈ (s.task g).workers, w.cleans = true → s.holder = some (.worker g)

omit [DecidableEq G] in
theorem initial_workersInv (maxConcurrent : Nat) : (initial maxConcurrent : Manager G).WorkersInv where
  rule := ⟨fun _ => Nat.zero_le 1, fun _ => ⟨nofun, nofun⟩, nofun⟩
  sched := fun h => absurd rfl h
  cleaning := nofun

/-! ## Changes of one task -/

@[simp] theorem modify_task_self (s : Manager G) (gid : G) (f : Task → Task) :
    (s.modify gid f).task gid = f (s.task gid) := if_pos rfl

variable {s : Manager G} {gid : G}

theorem modify_task_ne {g : G} {f : Task → Task} (h : g ≠ gid) :
    (s.modify gid f).task g = s.task g := if_neg h

@[simp] theorem pick_task_self (s : Manager G) (gid : G) (rest : List G) :
    (s.pick gid rest).task gid = (s.task gid).pick := if_pos rfl

theorem pick_task_ne {g : G} {rest : List G} (h : g ≠ gid) :
    (s.pick gid rest).task g = s.task g := if_neg h

@[simp] theorem activate_task_self (s : Manager G) (gid : G) :
    (s.activate gid).task gid = (s.task gid).activate := if_pos rfl

theorem activate_task_ne {g : G} (h : g ≠ gid) : (s.activate gid).task g = s.task g := if_neg h

variable {s' : Manager G}

omit [DecidableEq G] in
/-- A step that leaves the workers and the locks alone keeps the invariant, unless it brings a task to
rest whose worker is at work. -/
theorem WorkersInv.congr (h : s.WorkersInv)
    (hworkers : ∀ g, (s'.task g).workers = (s.task g).workers) (hactive : s'.active = s.active)
    (hholder : s'.holder = s.holder) (hsched : s'.sched = s.sched)
    (hstatus : ∀ g, ∀ w ∈ (s.task g).workers, w.runs = true → (s'.task g).status.rests = true →
      (s.task g).status.rests = true) : s'.WorkersInv := by
  refine ⟨⟨fun g => ?_, fun g => ?_, fun g w hw hruns => ?_⟩, fun hs => ?_, fun g w hw hc => ?_⟩
  · rw [hworkers]
    exact h.rule.single g
  · rw [hworkers, hactive]
    exact h.rule.active g
  · rw [hworkers] at hw
    by_cases hrests : (s'.task g).status.rests = true
    · exact absurd (hstatus g w hw hruns hrests) (by rw [h.rule.busy g w hw hruns]; decide)
    · exact Bool.eq_false_iff.mpr hrests
  · rw [hholder]
    rw [hsched] at hs
    exact h.sched hs
  · rw [hworkers] at hw
    rw [hholder]
    exact h.cleaning g w hw hc

/-! ## Commands -/

theorem onTask_frame (c : Caller) (t : Task) :
    (c.onTask t).1.workers = t.workers ∧
      (c.rests = false → (c.onTask t).1.status.rests = true → t.status.rests = true) ∧
      (c.rests = true → (c.onTask t).1.status.rests = true) := by
  cases c with
  | pauseStatus | removedStatus => exact ⟨rfl, nofun, fun _ => rfl⟩
  | unpauseStatus => exact ⟨rfl, nofun, nofun⟩
  | _ => exact ⟨rfl, fun _ h => h, nofun⟩

/-- A step under the lock leaves the tasks themselves alone, and the scheduler and the lock. -/
theorem onInner_frame {c : Caller} {next : Option Caller} (h : s.onInner gid c = some (s', next)) :
    s'.task = s.task ∧ s'.active = s.active ∧ s'.holder = s.holder ∧ s'.sched = s.sched ∧
      c.rests = false := by
  cases c with
  | pauseLookup | unpauseLookup | stopLookup | removeLookup | pauseDequeue | removeDequeue
  | unpauseForget | unpauseEnqueue | removedForget =>
    obtain ⟨rfl, rfl⟩ := Prod.mk.inj (Option.some.inj h)
    exact ⟨rfl, rfl, rfl, rfl, rfl⟩
  | _ => cases h

variable {i : Nat}

/-- **A step of a command** keeps the invariant, unless it writes its status under a worker. -/
theorem callerStep_workersInv {c : Caller} (h : s.WorkersInv)
    (hstep : s.callerStep gid i c = some s')
    (hc : c.rests = true → ∀ w ∈ (s.task gid).workers, w.runs = false) : s'.WorkersInv := by
  unfold callerStep at hstep
  split at hstep
  · rename_i u next hinner
    obtain ⟨-, ⟨⟩⟩ := Option.ite_none_right_eq_some.mp hstep
    obtain ⟨htask, hactive, hholder, hsched, -⟩ := onInner_frame hinner
    refine h.congr (fun g => ?_) hactive hholder hsched fun g w _ _ hrests => ?_
    · by_cases hg : g = gid
      · rw [hg, modify_task_self, htask]
      · rw [modify_task_ne hg, htask]
    · by_cases hg : g = gid
      · rw [hg, modify_task_self, htask] at hrests
        rw [hg]
        exact hrests
      · rw [modify_task_ne hg, htask] at hrests
        exact hrests
  · obtain rfl := Option.some.inj hstep
    obtain ⟨hworkers, hkeep, -⟩ := onTask_frame c (s.task gid)
    refine h.congr (fun g => ?_) rfl rfl rfl fun g w hw hruns hrests => ?_
    · by_cases hg : g = gid
      · rw [hg, modify_task_self]
        exact hworkers
      · rw [modify_task_ne hg]
    · by_cases hg : g = gid
      · subst hg
        rw [modify_task_self] at hrests
        by_cases hc' : c.rests = true
        · exact absurd hruns (by rw [hc hc' w hw]; decide)
        · exact hkeep (Bool.eq_false_iff.mpr hc') hrests
      · rw [modify_task_ne hg] at hrests
        exact hrests

/-! ## Workers -/

variable {w : Worker}

omit [DecidableEq G] in
/-- A task's one worker goes on to another step, on its side of the cleanup. -/
theorem WorkersInv.replace (h : s.WorkersInv) (w' : Worker) (hw : (s.task gid).workers = [w])
    (hw' : (s'.task gid).workers = [w']) (hother : ∀ g, g ≠ gid → s'.task g = s.task g)
    (hactive : s'.active = s.active) (hholder : s'.holder = s.holder) (hsched : s'.sched = s.sched)
    (hcleans : w'.cleans = w.cleans) (hruns : w'.runs = true → (s'.task gid).status.rests = false) :
    s'.WorkersInv := by
  refine ⟨⟨fun g => ?_, fun g => ?_, fun g v hv hv' => ?_⟩, fun hs => ?_, fun g v hv hc => ?_⟩
  · by_cases hg : g = gid
    · rw [hg, hw']
      exact Nat.le_refl 1
    · rw [hother g hg]
      exact h.rule.single g
  · rw [hactive, h.rule.active g]
    by_cases hg : g = gid
    · subst hg
      rw [hw, hw']
      simp only [List.mem_singleton, exists_eq_left, hcleans]
    · rw [hother g hg]
  · by_cases hg : g = gid
    · subst hg
      rw [hw'] at hv
      obtain rfl := List.mem_singleton.mp hv
      exact hruns hv'
    · rw [hother g hg] at hv ⊢
      exact h.rule.busy g v hv hv'
  · rw [hholder]
    rw [hsched] at hs
    exact h.sched hs
  · rw [hholder]
    by_cases hg : g = gid
    · subst hg
      rw [hw'] at hv
      obtain rfl := List.mem_singleton.mp hv
      rw [hcleans] at hc
      exact h.cleaning g w (by rw [hw]; exact List.mem_singleton_self w) hc
    · rw [hother g hg] at hv
      exact h.cleaning g v hv hc

theorem finalStatus_workers (t : Task) (result : DriveResult) :
    (t.finalStatus result).1.workers = t.workers := by
  unfold Task.finalStatus
  split
  · rfl
  · split
    · rfl
    · rfl
    · rfl
    · rfl
    · rfl
  · rfl

/-- A step of a worker outside `inner` stays on its side of the cleanup, and leaves the status of a
task at work alone. -/
theorem Worker.onTask_frame {w' : Worker} {t t' : Task} (h : w.onTask t = some (t', w')) :
    t'.workers = t.workers ∧ w'.cleans = w.cleans ∧
      (w'.runs = true → w.runs = true ∧ t'.status = t.status) := by
  cases w with
  | spawned =>
    obtain ⟨rfl, rfl⟩ := Prod.mk.inj (Option.some.inj h)
    exact ⟨rfl, rfl, fun _ => ⟨rfl, rfl⟩⟩
  | ended result =>
    obtain ⟨rfl, rfl⟩ := Prod.mk.inj (Option.some.inj h)
    exact ⟨finalStatus_workers t result, rfl, nofun⟩
  | removing | restartIntent | restartToken =>
    obtain ⟨rfl, rfl⟩ := Prod.mk.inj (Option.some.inj h)
    exact ⟨rfl, rfl, nofun⟩
  | written | cleaning | checkingStatus | checkingIntent =>
    obtain ⟨rfl, rfl⟩ := Prod.mk.inj (Option.some.inj h)
    split
    · exact ⟨rfl, rfl, nofun⟩
    · exact ⟨rfl, rfl, nofun⟩
  | _ => cases h

omit [DecidableEq G] in
/-- A worker that holds the lock gives it back and is gone. -/
theorem WorkersInv.remove (h : s.WorkersInv) (hw : (s.task gid).workers = [w])
    (hclean : w.cleans = true) (hgone : (s'.task gid).workers = [])
    (hother : ∀ g, g ≠ gid → s'.task g = s.task g) (hactive : s'.active = s.active)
    (hsched : s'.sched = s.sched) : s'.WorkersInv := by
  have hmine : s.holder = some (.worker gid) :=
    h.cleaning gid w (by rw [hw]; exact List.mem_singleton_self w) hclean
  refine ⟨⟨fun g => ?_, fun g => ?_, fun g v hv hv' => ?_⟩, fun hs => ?_, fun g v hv hc => ?_⟩
  · by_cases hg : g = gid
    · rw [hg, hgone]
      exact Nat.zero_le 1
    · rw [hother g hg]
      exact h.rule.single g
  · rw [hactive, h.rule.active g]
    by_cases hg : g = gid
    · subst hg
      rw [hw, hgone]
      simp only [List.mem_singleton, exists_eq_left, hclean, List.not_mem_nil, false_and,
        exists_false, Bool.true_eq_false]
    · rw [hother g hg]
  · by_cases hg : g = gid
    · rw [hg, hgone] at hv
      cases hv
    · rw [hother g hg] at hv ⊢
      exact h.rule.busy g v hv hv'
  · rw [hsched] at hs
    have hheld := h.sched hs
    rw [hmine] at hheld
    cases hheld
  · -- nobody else could be cleaning up while the lock was taken
    by_cases hg : g = gid
    · rw [hg, hgone] at hv
      cases hv
    · rw [hother g hg] at hv
      have hheld := h.cleaning g v hv hc
      rw [hmine] at hheld
      cases hheld
      exact absurd rfl hg

theorem release_frame (h : s.release gid w = some s') :
    w.cleans = true ∧ s'.active = s.active ∧ s'.sched = s.sched ∧
      (s'.task gid).workers = (s.task gid).workers ∧ ∀ g, g ≠ gid → s'.task g = s.task g := by
  cases w with
  | dropping | restartEnqueue =>
    cases h
    exact ⟨rfl, rfl, rfl, rfl, fun _ _ => rfl⟩
  | pausing =>
    cases h
    refine ⟨rfl, rfl, rfl, ?_, fun g hg => modify_task_ne hg⟩
    rw [modify_task_self]
  | stopping terminal =>
    cases terminal with
    | false =>
      cases h
      exact ⟨rfl, rfl, rfl, rfl, fun _ _ => rfl⟩
    | true =>
      cases h
      exact ⟨rfl, rfl, rfl, rfl, fun _ _ => rfl⟩
  | _ => cases h

/-- The worker takes the lock, and its gid out of the active ones. -/
theorem leave_workersInv {terminal : Bool} (h : s.WorkersInv)
    (hw : (s.task gid).workers = [.leaving terminal]) (hfree : s.holder = none) :
    ({ s with holder := some (.worker gid), active := s.active.filter (· ≠ gid) }.modify gid
      fun t => { t with workers := t.workers.set 0 (.cleaning terminal) }).WorkersInv := by
  have hnew : ∀ g, (({ s with
      holder := some (.worker gid), active := s.active.filter (· ≠ gid) } : Manager G).modify gid
      fun t => { t with workers := t.workers.set 0 (.cleaning terminal) }).task g =
        if g = gid then { s.task g with workers := [.cleaning terminal] } else s.task g := by
    intro g
    by_cases hg : g = gid
    · subst hg
      rw [modify_task_self, if_pos rfl, hw, List.set_cons_zero]
    · rw [modify_task_ne hg, if_neg hg]
  -- the lock was free: no worker is cleaning up, and the scheduler is not at work
  have hnone : ∀ g, ∀ v ∈ (s.task g).workers, v.cleans = false := by
    intro g v hv
    by_cases hc : v.cleans = true
    · have hheld := h.cleaning g v hv hc
      rw [hfree] at hheld
      cases hheld
    · exact Bool.eq_false_iff.mpr hc
  refine ⟨⟨fun g => ?_, fun g => ?_, fun g v hv hv' => ?_⟩, fun hs => ?_, fun g v hv hc => ?_⟩
  · rw [hnew]
    split
    · exact Nat.le_refl 1
    · exact h.rule.single g
  · rw [hnew]
    show g ∈ s.active.filter (· ≠ gid) ↔ _
    rw [List.mem_filter, h.rule.active g]
    by_cases hg : g = gid
    · subst hg
      rw [if_pos rfl]
      simp [Worker.cleans]
    · rw [if_neg hg]
      simp [hg]
  · rw [hnew] at hv ⊢
    by_cases hg : g = gid
    · rw [if_pos hg] at hv
      obtain rfl := List.mem_singleton.mp hv
      cases hv'
    · rw [if_neg hg] at hv ⊢
      exact h.rule.busy g v hv hv'
  · have hheld := h.sched hs
    rw [hfree] at hheld
    cases hheld
  · rw [hnew] at hv
    by_cases hg : g = gid
    · rw [hg]
      rfl
    · rw [if_neg hg] at hv
      rw [hnone g v hv] at hc
      cases hc

/-- **A step of a worker** keeps the invariant. -/
theorem workerStep_workersInv (h : s.WorkersInv) (hw : (s.task gid).workers[i]? = some w)
    (hstep : s.workerStep gid i w = some s') : s'.WorkersInv := by
  obtain ⟨hsole, rfl⟩ := sole (h.rule.single gid) hw
  have hmem : w ∈ (s.task gid).workers := by
    rw [hsole]
    exact List.mem_singleton_self w
  unfold workerStep at hstep
  split at hstep
  · rename_i terminal
    obtain ⟨hfree, ⟨⟩⟩ := Option.ite_none_right_eq_some.mp hstep
    exact leave_workersInv h hsole hfree
  · split at hstep
    · rename_i t' w' htask
      obtain rfl := Option.some.inj hstep
      obtain ⟨hworkers, hcleans, hruns⟩ := Worker.onTask_frame htask
      refine h.replace w' hsole ?_ (fun g hg => modify_task_ne hg) rfl rfl rfl hcleans
        fun hr => ?_
      · rw [modify_task_self, hworkers, hsole, List.set_cons_zero]
      · obtain ⟨hr, hstatus⟩ := hruns hr
        rw [modify_task_self]
        show t'.status.rests = false
        rw [hstatus]
        exact h.rule.busy gid w hmem hr
    · obtain ⟨u, hrelease, rfl⟩ := Option.map_eq_some_iff.mp hstep
      obtain ⟨hclean, hactive, hsched, hworkers, hother⟩ := release_frame hrelease
      refine h.remove hsole hclean ?_ (fun g hg => ?_) hactive hsched
      · rw [modify_task_self, hworkers, hsole, List.eraseIdx_zero, List.tail_cons]
      · rw [modify_task_ne hg, hother g hg]

/-- The drive ends, or its timer ticks. -/
theorem driveEnds_workersInv {result : DriveResult} (h : s.WorkersInv)
    (hstep : s.step (.driveEnds gid i result) = some s') : s'.WorkersInv := by
  rw [step] at hstep
  split at hstep
  · rename_i token ticked hw
    obtain ⟨-, ⟨⟩⟩ := Option.ite_none_right_eq_some.mp hstep
    obtain ⟨hsole, rfl⟩ := sole (h.rule.single gid) hw
    refine h.replace (.ended result) hsole ?_ (fun g hg => modify_task_ne hg) rfl rfl rfl rfl
      fun _ => ?_
    · rw [modify_task_self, hsole, List.set_cons_zero]
    · rw [modify_task_self]
      exact h.rule.busy gid _ (by rw [hsole]; exact List.mem_singleton_self _) rfl
  · cases hstep

theorem tick_frame {t t' : Task} {token : Nat} {ticked : Bool} {tick : Tick}
    (hw : t.workers = [.driving token ticked]) (h : t.tick 0 token ticked tick = some t') :
    (∃ ticked', t'.workers = [.driving token ticked']) ∧
      (t.status.rests = false → t'.status.rests = false) := by
  cases tick with
  | seeding =>
    obtain ⟨-, ⟨⟩⟩ := Option.ite_none_right_eq_some.mp h
    exact ⟨⟨ticked, hw⟩, fun _ => rfl⟩
  | selection restart =>
    obtain ⟨-, ⟨⟩⟩ := Option.ite_none_right_eq_some.mp h
    refine ⟨⟨true, ?_⟩, id⟩
    show t.workers.set 0 _ = _
    rw [hw, List.set_cons_zero]
  | cancel =>
    obtain ⟨-, ⟨⟩⟩ := Option.ite_none_right_eq_some.mp h
    refine ⟨⟨false, ?_⟩, id⟩
    show t.workers.set 0 _ = _
    rw [hw, List.set_cons_zero]

theorem tick_workersInv {tick : Tick} (h : s.WorkersInv)
    (hstep : s.step (.tick gid i tick) = some s') : s'.WorkersInv := by
  rw [step] at hstep
  split at hstep
  · rename_i token ticked hw
    obtain ⟨t', htick, rfl⟩ := Option.map_eq_some_iff.mp hstep
    obtain ⟨hsole, rfl⟩ := sole (h.rule.single gid) hw
    obtain ⟨⟨ticked', hw'⟩, hstatus⟩ := tick_frame hsole htick
    refine h.replace (.driving token ticked') hsole ?_ (fun g hg => modify_task_ne hg) rfl rfl
      rfl rfl fun _ => ?_
    · rw [modify_task_self]
      exact hw'
    · rw [modify_task_self]
      exact hstatus (h.rule.busy gid _ (by rw [hsole]; exact List.mem_singleton_self _) rfl)
  · cases hstep

/-! ## The scheduler -/

omit [DecidableEq G] in
/-- The workers that a scheduler's step maps to others at the same stage. -/
theorem WorkersInv.map (h : s.WorkersInv) {f : G → Worker → Worker}
    (hworkers : ∀ g, (s'.task g).workers = (s.task g).workers.map (f g))
    (hactive : s'.active = s.active) (hcleans : ∀ g w, (f g w).cleans = w.cleans)
    (hbusy : ∀ g, ∀ w ∈ (s.task g).workers, (f g w).runs = true → (s'.task g).status.rests = false)
    (hmine : s.holder = some .sched) (hsched : s'.sched ≠ .idle → s'.holder = some .sched) :
    s'.WorkersInv := by
  refine ⟨⟨fun g => ?_, fun g => ?_, fun g w hw hruns => ?_⟩, hsched, fun g w hw hc => ?_⟩
  · rw [hworkers, List.length_map]
    exact h.rule.single g
  · rw [hactive, h.rule.active g, hworkers]
    constructor
    · rintro ⟨w, hw, hc⟩
      exact ⟨f g w, List.mem_map_of_mem hw, (hcleans g w).trans hc⟩
    · rintro ⟨w, hw, hc⟩
      obtain ⟨v, hv, rfl⟩ := List.mem_map.mp hw
      exact ⟨v, hv, (hcleans g v).symm.trans hc⟩
  · rw [hworkers] at hw
    obtain ⟨v, hv, rfl⟩ := List.mem_map.mp hw
    exact hbusy g v hv hruns
  · rw [hworkers] at hw
    obtain ⟨v, hv, rfl⟩ := List.mem_map.mp hw
    rw [hcleans] at hc
    have hheld := h.cleaning g v hv hc
    rw [hmine] at hheld
    cases hheld

omit [DecidableEq G] in
theorem spawnAll_workersInv (h : s.WorkersInv) (hmine : s.holder = some .sched) :
    s.spawnAll.WorkersInv := by
  refine h.map (f := fun _ w => if w = Worker.started then Worker.spawned else w) (fun g => rfl) rfl
    (fun g w => ?_) (fun g w hw hruns => ?_) hmine fun hs => absurd rfl hs
  · by_cases hw : w = .started
    · rw [if_pos hw, hw]
      rfl
    · rw [if_neg hw]
  · show (s.task g).status.rests = false
    by_cases hstarted : w = .started
    · exact h.rule.busy g w hw (by rw [hstarted]; rfl)
    · rw [if_neg hstarted] at hruns
      exact h.rule.busy g w hw hruns

theorem activate_workersInv (h : s.WorkersInv) (hsched : s.sched = .activate gid) :
    (s.activate gid).WorkersInv := by
  have hmine := h.sched (by rw [hsched]; nofun)
  refine h.map (f := fun g w => if g = gid ∧ w = Worker.picked then Worker.started else w)
    (fun g => ?_) rfl (fun g w => ?_) (fun g w hw hruns => ?_) hmine fun _ => hmine
  · by_cases hg : g = gid
    · subst hg
      rw [activate_task_self]
      simp only [Task.activate, true_and]
    · rw [activate_task_ne hg]
      simp only [hg, false_and, if_false, List.map_id']
  · by_cases hw : g = gid ∧ w = .picked
    · rw [if_pos hw, hw.2]
      rfl
    · rw [if_neg hw]
  · by_cases hg : g = gid
    · subst hg
      rw [activate_task_self]
      rfl
    · rw [activate_task_ne hg]
      rw [if_neg (fun hw => hg hw.1)] at hruns
      exact h.rule.busy g w hw hruns

/-- `fill_slots` takes a task whose gid is not active: nobody works for it. -/
theorem pick_workersInv {rest : List G} (h : s.WorkersInv) (hsched : s.sched = .head)
    (hnew : gid ∉ s.active) : (s.pick gid rest).WorkersInv := by
  have hmine := h.sched (by rw [hsched]; nofun)
  have hnone : (s.task gid).workers = [] := by
    refine List.eq_nil_iff_forall_not_mem.mpr fun w hw => ?_
    by_cases hc : w.cleans = true
    · have hheld := h.cleaning gid w hw hc
      rw [hmine] at hheld
      cases hheld
    · exact hnew ((h.rule.active gid).mpr ⟨w, hw, Bool.eq_false_iff.mpr hc⟩)
  have hpick : ((s.pick gid rest).task gid).workers = [.picked] := by
    rw [pick_task_self, Task.pick, hnone, List.nil_append]
  refine ⟨⟨fun g => ?_, fun g => ?_, fun g w hw hruns => ?_⟩, fun _ => hmine, fun g w hw hc => ?_⟩
  · by_cases hg : g = gid
    · rw [hg, hpick]
      exact Nat.le_refl 1
    · rw [pick_task_ne hg]
      exact h.rule.single g
  · show g ∈ (if gid ∈ s.active then s.active else s.active ++ [gid]) ↔ _
    rw [if_neg hnew, List.mem_append, List.mem_singleton]
    by_cases hg : g = gid
    · subst hg
      rw [hpick]
      simp [Worker.cleans]
    · rw [pick_task_ne hg, h.rule.active g]
      simp only [hg, or_false]
  · by_cases hg : g = gid
    · subst hg
      rw [hpick] at hw
      obtain rfl := List.mem_singleton.mp hw
      cases hruns
    · rw [pick_task_ne hg] at hw ⊢
      exact h.rule.busy g w hw hruns
  · by_cases hg : g = gid
    · subst hg
      rw [hpick] at hw
      obtain rfl := List.mem_singleton.mp hw
      cases hc
    · rw [pick_task_ne hg] at hw
      exact h.cleaning g w hw hc

/-- What a step of `fill_slots` does. -/
inductive SchedMove (s : Manager G) : Manager G → Prop
  | enter (hsched : s.sched = .idle) (hfree : s.holder = none) :
    SchedMove s { s with holder := some .sched, sched := .head }
  | leave (hsched : s.sched = .head) (hdone : s.maxConcurrent ≤ s.active.length ∨ s.queue = []) :
    SchedMove s s.spawnAll
  | skip (gid : G) (rest : List G) (hsched : s.sched = .head) (hqueue : s.queue = gid :: rest)
    (hstale : gid ∉ s.tasks ∨ (s.task gid).status ≠ .waiting)
    (hslot : s.active.length < s.maxConcurrent) : SchedMove s { s with queue := rest }
  | take (gid : G) (rest : List G) (hsched : s.sched = .head) (hqueue : s.queue = gid :: rest)
    (htask : gid ∈ s.tasks) (hwaiting : (s.task gid).status = .waiting)
    (hslot : s.active.length < s.maxConcurrent) : SchedMove s (s.pick gid rest)
  | activate (gid : G) (hsched : s.sched = .activate gid) : SchedMove s (s.activate gid)

/-- The count of what is downloading never ends `fill_slots`: it leaves out the seeding tasks, and all
the active ones together are fewer than the limit. -/
theorem downloading_le (s : Manager G) : s.downloading ≤ s.active.length := List.length_filter_le _ _

theorem schedStep_move (h : s.schedStep = some s') : SchedMove s s' := by
  unfold schedStep at h
  split at h
  · rename_i hsched
    obtain ⟨hfree, ⟨⟩⟩ := Option.ite_none_right_eq_some.mp h
    exact .enter hsched hfree
  · rename_i hsched
    split at h
    · rename_i hfull
      obtain rfl := Option.some.inj h
      exact .leave hsched (.inl (Nat.le_of_not_lt hfull))
    rename_i hslot
    split at h
    · rename_i hfull
      have hle := s.downloading_le
      omega
    split at h
    · rename_i hqueue
      obtain rfl := Option.some.inj h
      exact .leave hsched (.inr hqueue)
    rename_i gid rest hqueue
    split at h
    · rename_i hgone
      obtain rfl := Option.some.inj h
      exact .skip gid rest hsched hqueue (.inl hgone) (Decidable.not_not.mp hslot)
    rename_i htask
    split at h
    · rename_i hstatus
      obtain rfl := Option.some.inj h
      exact .skip gid rest hsched hqueue (.inr hstatus) (Decidable.not_not.mp hslot)
    · rename_i hstatus
      obtain rfl := Option.some.inj h
      exact .take gid rest hsched hqueue (Decidable.not_not.mp htask)
        (Decidable.not_not.mp hstatus) (Decidable.not_not.mp hslot)
  · rename_i gid hsched
    obtain rfl := Option.some.inj h
    exact .activate gid hsched

/-- **A step of `fill_slots`** keeps the invariant, unless it takes a task that is still active. -/
theorem schedStep_workersInv (h : s.WorkersInv) (hstep : s.schedStep = some s')
    (hc : s.Undisturbed .fill) : s'.WorkersInv := by
  cases schedStep_move hstep with
  | enter hsched hfree =>
    refine ⟨⟨h.rule.single, h.rule.active, h.rule.busy⟩, fun _ => rfl, fun g w hw hclean => ?_⟩
    have hheld := h.cleaning g w hw hclean
    rw [hfree] at hheld
    cases hheld
  | leave hsched hdone => exact spawnAll_workersInv h (h.sched (by rw [hsched]; nofun))
  | skip gid rest hsched hqueue hstale =>
    exact h.congr (fun _ => rfl) rfl rfl rfl fun _ _ _ _ hrests => hrests
  | take gid rest hsched hqueue htask hwaiting hslot =>
    refine pick_workersInv h hsched (hc hsched gid ?_ htask hwaiting hslot)
    rw [hqueue]
    exact Option.mem_some_self gid
  | activate gid hsched => exact activate_workersInv h hsched

/-! ## Runs -/

theorem add_workersInv {isBt : Bool} {position : Option Nat} (h : s.WorkersInv)
    (hstep : s.step (.add gid isBt position) = some s') : s'.WorkersInv := by
  obtain ⟨-, ⟨⟩⟩ := Option.ite_none_right_eq_some.mp hstep
  refine h.congr (fun g => ?_) rfl rfl rfl fun g w _ _ hrests => ?_
  · by_cases hg : g = gid
    · rw [hg, modify_task_self]
      rfl
    · rw [modify_task_ne hg]
  · by_cases hg : g = gid
    · rw [hg, modify_task_self] at hrests
      cases hrests
    · rw [modify_task_ne hg] at hrests
      exact hrests

/-- A change of a task that leaves its status and its workers alone. -/
theorem modify_workersInv {f : Task → Task} (h : s.WorkersInv)
    (hstatus : (f (s.task gid)).status = (s.task gid).status)
    (hworkers : (f (s.task gid)).workers = (s.task gid).workers) : (s.modify gid f).WorkersInv := by
  refine h.congr (fun g => ?_) rfl rfl rfl fun g w _ _ hrests => ?_
  · by_cases hg : g = gid
    · rw [hg, modify_task_self, hworkers]
    · rw [modify_task_ne hg]
  · by_cases hg : g = gid
    · rw [hg, modify_task_self, hstatus] at hrests
      rw [hg]
      exact hrests
    · rw [modify_task_ne hg] at hrests
      exact hrests

/-- **One step** keeps the invariant, unless it is one of the two that break the rule. -/
theorem step_workersInv (s : Manager G) (e : Event G) (s' : Manager G) (h : s.WorkersInv)
    (hc : s.Undisturbed e) (hstep : s.step e = some s') : s'.WorkersInv := by
  cases e with
  | add gid isBt position => exact add_workersInv h hstep
  | call gid command =>
    obtain rfl := Option.some.inj hstep
    exact modify_workersInv h rfl rfl
  | caller gid i =>
    rw [step] at hstep
    split at hstep
    · rename_i c hcaller
      exact callerStep_workersInv h hstep (hc c hcaller)
    · cases hstep
  | fill => exact schedStep_workersInv h hstep hc
  | worker gid i =>
    rw [step] at hstep
    split at hstep
    · rename_i w hw
      exact workerStep_workersInv h hw hstep
    · cases hstep
  | driveEnds gid i result => exact driveEnds_workersInv h hstep
  | tick gid i tick => exact tick_workersInv h hstep
  | awaits gid awaitsFiles =>
    obtain rfl := Option.some.inj hstep
    exact modify_workersInv h rfl rfl

/-- A step that breaks the rule is seen at once. -/
theorem step_breaks (s : Manager G) (e : Event G) (s' : Manager G) (h : s.WorkersInv)
    (hc : ¬s.Undisturbed e) (hstep : s.step e = some s') : ¬s'.OneWorker := by
  intro hrule
  refine hc ?_
  cases e with
  | caller gid i =>
    intro c hcaller hrests w hw
    rw [step, Option.mem_def.mp hcaller] at hstep
    dsimp only at hstep
    unfold callerStep at hstep
    split at hstep
    · rename_i u next hinner
      rw [(onInner_frame hinner).2.2.2.2] at hrests
      cases hrests
    · obtain rfl := Option.some.inj hstep
      obtain ⟨hworkers, -, hstatus⟩ := onTask_frame c (s.task gid)
      by_cases hruns : w.runs = true
      · have hbusy := hrule.busy gid w
        rw [modify_task_self] at hbusy
        have := hbusy (by rw [← hworkers] at hw; exact hw) hruns
        exact absurd (hstatus hrests) (by rw [this]; decide)
      · exact Bool.eq_false_iff.mpr hruns
  | fill =>
    intro hsched gid hhead htask hwaiting hslot hactive
    obtain ⟨w, hw, -⟩ := (h.rule.active gid).mp hactive
    cases schedStep_move hstep with
    | enter hidle => exact absurd (hidle.symm.trans hsched) nofun
    | activate gid' hactivate => exact absurd (hactivate.symm.trans hsched) nofun
    | leave hsched' hdone =>
      cases hdone with
      | inl hfull => omega
      | inr hempty =>
        rw [hempty] at hhead
        cases hhead
    | skip gid' rest hsched' hqueue hstale =>
      rw [hqueue, List.head?_cons, Option.mem_some_iff] at hhead
      subst hhead
      cases hstale with
      | inl hgone => exact hgone htask
      | inr hstatus => exact hstatus hwaiting
    | take gid' rest hsched' hqueue =>
      rw [hqueue, List.head?_cons, Option.mem_some_iff] at hhead
      subst hhead
      have hsingle := hrule.single gid'
      rw [pick_task_self, Task.pick, List.length_append, List.length_singleton] at hsingle
      have hpos := List.length_pos_of_mem hw
      omega
  | _ => trivial

/-- **One worker per task**, in every state of a run, if and only if no step of the run is one of the
two that break the rule. -/
theorem oneWorker_iff_undisturbed {maxConcurrent : Nat} {es : List (Event G)} {t : Manager G}
    (hrun : StepRun.run step (initial maxConcurrent) es = some t) :
    StepRun.Everywhere step OneWorker (initial maxConcurrent) es ↔
      StepRun.Along step Undisturbed (initial maxConcurrent) es :=
  StepRun.everywhere_iff_along (fun _ h => h.rule) step_workersInv step_breaks
    (initial_workersInv maxConcurrent) hrun

/-- A task is started, paused while it runs, and started again. -/
theorem pause_and_resume_oneWorker :
    StepRun.Everywhere step OneWorker (initial 1 : Manager Unit)
      ([Event.add () false none, .fill, .fill, .fill, .fill, .worker () 0, .call () .pause] ++
        List.replicate 4 (Event.caller () 0) ++ [Event.driveEnds () 0 (.failed .cancelled)] ++
        List.replicate 6 (Event.worker () 0) ++ [Event.call () .unpause] ++
        List.replicate 8 (Event.caller () 0) ++ [Event.fill, .fill, .fill, .fill, .worker () 0]) :=
  (oneWorker_iff_undisturbed rfl).mpr (by decide +kernel)

/-! ## A pause between the scheduler's look and its own -/

/-- `pause` reads a waiting task, `fill_slots` starts it, `pause` writes its status; after an
`unpause` the next `fill_slots` starts it again. -/
def pauseOverFill : List (Event Unit) :=
  [Event.add () false none, .call () .pause, .caller () 0, .caller () 0, .fill, .fill, .fill, .fill,
    .worker () 0, .caller () 0, .caller () 0] ++
  [Event.call () .unpause] ++ List.replicate 8 (Event.caller () 0) ++ [Event.fill, .fill, .fill, .fill]

/-- The task is left with two workers. -/
theorem pauseOverFill_two_workers :
    ∃ t, StepRun.run step (initial 2 : Manager Unit) pauseOverFill = some t ∧
      (t.task ()).workers = [.driving 0 false, .spawned] ∧ ¬t.OneWorker := by
  have hrun : (StepRun.run step (initial 2 : Manager Unit) pauseOverFill).map
      (fun t => (t.task ()).workers) = some [.driving 0 false, .spawned] := by
    decide +kernel
  obtain ⟨t, ht, hworkers⟩ := Option.map_eq_some_iff.mp hrun
  refine ⟨t, ht, hworkers, fun h => ?_⟩
  have hsingle := h.single ()
  rw [hworkers] at hsingle
  exact absurd hsingle (by decide)

end Manager
end XferRust.Engine
