import XferRust.Engine.Lifecycle

/-! # Commands are kept

What a command has promised holds once the task has come to rest, a waiting task is in the queue, and
a task is removed only when somebody asked for it, as long as no command meets another one,
`fill_slots` or the end of a worker on the same task in the middle of its work.
-/
namespace XferRust.Engine
open Pool

/-- The command is looking for its task. -/
def Caller.looks : Caller → Bool
  | .pauseLookup | .unpauseLookup | .stopLookup | .removeLookup _ => true
  | _ => false

/-- The command is `remove_with_files`. -/
def Caller.removes : Caller → Bool
  | .removeLookup _ | .removeFiles _ | .removeRead _ | .removeDequeue _ | .removeIntent _
  | .removeCancel _ | .removedStatus _ | .removedForget _ | .removedFiles _ => true
  | _ => false

/-- The two steps of a worker that look at what a command may be in the middle of changing: the final
status, and the begin of the cleanup. -/
def Worker.concludes : Worker → Bool
  | .ended _ | .leaving _ => true
  | _ => false

/-- The drive has ended with its cancellation. -/
def Worker.notices : Worker → Bool
  | .ended result => result.failure? = some .cancelled
  | _ => true

namespace Manager

variable {G : Type} [DecidableEq G]

/-- Nothing is half done. -/
def Quiet (s : Manager G) : Prop := ∀ g, (s.task g).callers = [] ∧ (s.task g).workers = []

/-- Task commands are neither lost nor misread. -/
structure CommandsKept (s : Manager G) : Prop where
  queued : s.Quiet → ∀ g ∈ s.tasks, (s.task g).status = .waiting → s.queue.count g = 1
  removed : s.Quiet → ∀ g d, (s.task g).verdict = some (.removed d) →
    g ∉ s.tasks ∧ (d = true → (s.task g).files = false)
  paused : s.Quiet → ∀ g, (s.task g).verdict = some .paused →
    (s.task g).status = .paused ∨ (s.task g).status.isTerminal = true
  asked : ∀ g, (s.task g).status = .removed → (s.task g).removeCalled = true

/-- No command is at work on the task. -/
def Undecided (t : Task) : Prop := ∀ c ∈ t.callers, c.acts = false

instance (t : Task) : Decidable (Undecided t) :=
  inferInstanceAs (Decidable (∀ c ∈ t.callers, c.acts = false))

/-- A command goes on past its first decision only when no other one is at work on the task, and not
while `fill_slots` is starting its worker or the worker cleans up; `unpause` only when there is no
worker.  `fill_slots` does not come to the task of a command at work in the queue, and a worker does
not conclude then.  A worker that is to be removed has seen its cancellation, and the engine of a BT
task speaks of a cancellation only when it was cancelled. -/
def Orderly (s : Manager G) : Event G → Prop
  | .caller gid i =>
    ∀ c ∈ (s.task gid).callers[i]?, c.takesUp (s.task gid).status = true →
      Undecided (s.task gid) ∧
        ∀ w ∈ (s.task gid).workers, w ≠ .picked ∧ w.cleans = false ∧ c ≠ .unpauseRead
  | .fill =>
    s.sched = .head → s.active.length < s.maxConcurrent → ∀ gid ∈ s.queue.head?,
      Undecided (s.task gid)
  | .worker gid i =>
    ∀ w ∈ (s.task gid).workers[i]?, w.concludes = true →
      Undecided (s.task gid) ∧ ((s.task gid).intent = .remove → w.notices = true)
  | .driveEnds gid _ (.btFailed message) =>
    containsText message cancelText = true → (s.task gid).token ∈ (s.task gid).cancelled
  | _ => True

instance (s : Manager G) : DecidablePred s.Orderly
  | .caller gid i =>
    inferInstanceAs (Decidable (∀ c ∈ (s.task gid).callers[i]?,
      c.takesUp (s.task gid).status = true → Undecided (s.task gid) ∧
        ∀ w ∈ (s.task gid).workers, w ≠ .picked ∧ w.cleans = false ∧ c ≠ .unpauseRead))
  | .fill =>
    inferInstanceAs (Decidable (s.sched = .head → s.active.length < s.maxConcurrent →
      ∀ gid ∈ s.queue.head?, Undecided (s.task gid)))
  | .worker gid i =>
    inferInstanceAs (Decidable (∀ w ∈ (s.task gid).workers[i]?, w.concludes = true →
      Undecided (s.task gid) ∧ ((s.task gid).intent = .remove → w.notices = true)))
  | .driveEnds gid _ (.btFailed message) =>
    inferInstanceAs (Decidable (containsText message cancelText = true →
      (s.task gid).token ∈ (s.task gid).cancelled))
  | .driveEnds _ _ .ok | .driveEnds _ _ (.failed _) | .add _ _ _ | .call _ _ | .tick _ _ _
  | .awaits _ _ => isTrue trivial

/-! ## The invariant -/

/-- Nobody removes a task that was not to be removed. -/
structure Asked (t : Task) : Prop where
  callers : ∀ c ∈ t.callers, c.removes = true → t.removeCalled = true
  intent : t.intent = .remove → t.removeCalled = true
  status : t.status = .removed → t.removeCalled = true

/-- A gid that has not been given out, or a task in a phase of its life. -/
inductive TaskOk (t : Task) (listed : Prop) (queued : Nat) : Prop
  | unused (hadded : t.added = false) (hworkers : t.workers = [])
    (hcallers : ∀ c ∈ t.callers, c.looks = true) (hlisted : ¬listed) (hqueued : queued = 0)
    (hverdict : t.verdict = none)
  | living (w : Option Worker) (a : Option Caller) (hadded : t.added = true)
    (hworkers : t.workers = w.toList) (hbusy : Busy Caller.acts t.callers a)
    (hfits : Fits w a t.view listed queued)

structure CommandsInv (s : Manager G) : Prop where
  workers : s.WorkersInv
  tasks : ∀ g, TaskOk (s.task g) (g ∈ s.tasks) (s.queue.count g)
  picked : ∀ g, Worker.picked ∈ (s.task g).workers ↔ s.sched = .activate g
  asked : ∀ g, Asked (s.task g)

theorem initial_commandsInv (maxConcurrent : Nat) :
    (initial maxConcurrent : Manager G).CommandsInv where
  workers := initial_workersInv maxConcurrent
  tasks := fun _ => .unused rfl rfl nofun nofun rfl rfl
  picked := fun _ => ⟨nofun, nofun⟩
  asked := fun _ => ⟨nofun, nofun, nofun⟩

variable {t : Task} {listed : Prop} {queued : Nat}

theorem TaskOk.unlist {listed' : Prop} (h : TaskOk t listed queued) (hl : listed' → listed) :
    TaskOk t listed' queued := by
  cases h with
  | unused hadded hworkers hcallers hlisted hqueued hverdict =>
    exact .unused hadded hworkers hcallers (fun h => hlisted (hl h)) hqueued hverdict
  | living w a hadded hworkers hbusy hfits =>
    exact .living w a hadded hworkers hbusy (hfits.unlist hl)

variable {s : Manager G}

/-- A task that the claim speaks about is kept when nothing is half done. -/
theorem CommandsInv.kept (h : s.CommandsInv) : s.CommandsKept := by
  have hrest : s.Quiet → ∀ g, (∀ p ∈ (s.task g).verdict,
      Promised (s.task g).view (g ∈ s.tasks) none p) ∧
      (g ∈ s.tasks → (s.task g).status = .waiting → s.queue.count g = 1) := by
    intro hquiet g
    obtain ⟨hcallers, hworkers⟩ := hquiet g
    cases h.tasks g with
    | unused hadded _ _ hlisted hqueued hverdict =>
      refine ⟨fun p hp => ?_, fun hl => absurd hl hlisted⟩
      rw [hverdict] at hp
      cases hp
    | living w a hadded hw hbusy hfits =>
      rw [hworkers] at hw
      have ha : a = none := by
        rw [hcallers] at hbusy
        cases a with
        | none => rfl
        | some c => cases hbusy
      have hw : w = none := by
        cases w with
        | none => rfl
        | some x => cases hw
      subst ha hw
      refine ⟨hfits.promise, fun hl hstatus => ?_⟩
      generalize s.queue.count g = queued at hfits ⊢
      cases hfits.phase with
      | waiting a queued _ _ _ _ _ hlisted => exact hlisted hl
      | resting a _ hrests =>
        have hstatus : (s.task g).view.status = .waiting := hstatus
        rw [hstatus] at hrests
        cases hrests
  refine ⟨fun hquiet g hl hstatus => (hrest hquiet g).2 hl hstatus,
    fun hquiet g d hp => (hrest hquiet g).1 _ hp, fun hquiet g hp => ?_, fun g => (h.asked g).status⟩
  have hrests : (s.task g).status.rests = true := (hrest hquiet g).1 _ hp
  cases hstatus : (s.task g).status with
  | paused => exact .inl rfl
  | complete | error | removed => exact .inr rfl
  | _ =>
    rw [hstatus] at hrests
    cases hrests

variable {s' : Manager G}

/-- What happens to one task keeps the invariant when it keeps it for that task. -/
theorem CommandsInv.replace (h : s.CommandsInv) (gid : G) (hworkers : s'.WorkersInv)
    (hother : ∀ g, g ≠ gid → s'.task g = s.task g)
    (htasks : ∀ g, g ≠ gid → g ∈ s'.tasks → g ∈ s.tasks)
    (hcount : ∀ g, g ≠ gid → s'.queue.count g = s.queue.count g)
    (hmine : TaskOk (s'.task gid) (gid ∈ s'.tasks) (s'.queue.count gid))
    (hpicked : ∀ g, Worker.picked ∈ (s'.task g).workers ↔ s'.sched = .activate g)
    (hasked : Asked (s'.task gid)) : s'.CommandsInv := by
  refine ⟨hworkers, fun g => ?_, hpicked, fun g => ?_⟩
  · by_cases hg : g = gid
    · rw [hg]
      exact hmine
    · rw [hother g hg, hcount g hg]
      exact (h.tasks g).unlist (htasks g hg)
  · by_cases hg : g = gid
    · rw [hg]
      exact hasked
    · rw [hother g hg]
      exact h.asked g

/-- The same where `fill_slots` stays where it is. -/
theorem CommandsInv.onTask (h : s.CommandsInv) (gid : G) (hworkers : s'.WorkersInv)
    (hother : ∀ g, g ≠ gid → s'.task g = s.task g)
    (htasks : ∀ g, g ≠ gid → g ∈ s'.tasks → g ∈ s.tasks)
    (hcount : ∀ g, g ≠ gid → s'.queue.count g = s.queue.count g)
    (hmine : TaskOk (s'.task gid) (gid ∈ s'.tasks) (s'.queue.count gid))
    (hsched : s'.sched = s.sched)
    (hpicked : Worker.picked ∈ (s'.task gid).workers ↔ Worker.picked ∈ (s.task gid).workers)
    (hasked : Asked (s'.task gid)) : s'.CommandsInv := by
  refine h.replace gid hworkers hother htasks hcount hmine (fun g => ?_) hasked
  rw [hsched]
  by_cases hg : g = gid
  · subst hg
    exact hpicked.trans (h.picked g)
  · rw [hother g hg]
    exact h.picked g

/-! ## No worker is disturbed -/

variable {i : Nat} {c : Caller}

/-- The phase of a task that a command is at work on. -/
theorem TaskOk.busy (h : TaskOk t listed queued) (hc : t.callers[i]? = some c)
    (hacts : c.acts = true) :
    t.added = true ∧ ∃ w, t.workers = w.toList ∧ Fits w (some c) t.view listed queued ∧
      ∀ next : Option Caller, Busy Caller.acts (advance t.callers i next) (next.filter Caller.acts) := by
  cases h with
  | unused hadded hworkers hcallers =>
    have hlooks := hcallers c (List.mem_of_getElem? hc)
    cases c with
    | pauseLookup | unpauseLookup | stopLookup | removeLookup => cases hacts
    | _ => cases hlooks
  | living w a hadded hworkers hbusy hfits =>
    obtain ⟨rfl, -⟩ := hbusy.step hc hacts none
    exact ⟨hadded, w, hworkers, hfits, fun next => (hbusy.step hc hacts next).2⟩

omit [DecidableEq G] in
variable {a : Option Caller} {c' : Caller}

/-- Nobody is at work on an undecided task that lives. -/
theorem idle_of_undecided (h : Undecided t) (hbusy : Busy Caller.acts t.callers a) : a = none := by
  cases a with
  | none => rfl
  | some c => exact absurd (h c hbusy.mem.1) (by rw [hbusy.mem.2]; decide)

theorem undisturbed_of_orderly {e : Event G} (h : s.CommandsInv) (hc : s.Orderly e) :
    s.Undisturbed e := by
  cases e with
  | caller gid i =>
    intro c hcaller hrests x hx
    have hacts : c.acts = true := by
      cases c with
      | pauseStatus | removedStatus => rfl
      | _ => cases hrests
    obtain ⟨-, w, hworkers, hfits, -⟩ := (h.tasks gid).busy hcaller hacts
    rw [hworkers, Option.mem_toList] at hx
    obtain rfl := hx
    generalize s.queue.count gid = queued at hfits
    -- `pause` and `finish_removed` write their status only before or after a worker
    cases hfits.phase with
    | running w a hw ha =>
      cases c with
      | pauseStatus | removedStatus => cases ha
      | _ => cases hrests
    | final w a hw ha => exact final_not_runs hw
  | fill =>
    intro hsched gid hhead hlisted hstatus hslot hactive
    obtain ⟨x, hx, -⟩ := (h.workers.rule.active gid).mp hactive
    have hidle := hc hsched hslot gid hhead
    cases h.tasks gid with
    | unused hadded hworkers =>
      rw [hworkers] at hx
      cases hx
    | living w a hadded hworkers hbusy hfits =>
      obtain rfl := idle_of_undecided hidle hbusy
      obtain ⟨rest, hqueue⟩ : ∃ rest, s.queue = gid :: rest := List.head?_eq_some_iff.mp hhead
      rw [hqueue, List.count_cons_self] at hfits
      obtain ⟨rfl, -, -⟩ := take_fits hfits hlisted hstatus
      rw [hworkers] at hx
      cases hx
  | _ => trivial

/-! ## Commands -/

omit [DecidableEq G] in
/-- A command stays the command that it is, and at work. -/
theorem onTask_next (h : (c.onTask t).2 = some c') :
    c'.removes = c.removes ∧ (c.acts = true → c'.acts = true) := by
  cases c with
  | pauseRead | unpauseRead | removeRead | stopRead | unpauseSelect =>
    simp only [Caller.onTask, Task.decide] at h
    split at h
    all_goals cases h
    all_goals exact ⟨rfl, fun _ => rfl⟩
  | pauseStatus | pauseCancel | unpauseStatus | stopCancel | removeCancel | removedFiles => cases h
  | _ =>
    obtain rfl := Option.some.inj h
    first
      | exact ⟨rfl, id⟩
      | exact ⟨rfl, fun _ => rfl⟩

omit [DecidableEq G] in
/-- A command that does not go on leaves the task as it is. -/
theorem onTask_refused (hacts : c.acts = false) (hlooks : c.looks = false)
    (htakes : c.takesUp t.status = false) : c.onTask t = (t, none) := by
  cases c with
  | pauseRead =>
    cases hstatus : t.status with
    | waiting | active | seeding =>
      rw [hstatus] at htakes
      cases htakes
    | _ =>
      rw [Caller.onTask, hstatus]
      rfl
  | unpauseRead =>
    cases hstatus : t.status with
    | paused | error =>
      rw [hstatus] at htakes
      cases htakes
    | _ =>
      rw [Caller.onTask, hstatus]
      rfl
  | stopRead =>
    rw [Caller.onTask, if_neg (of_decide_eq_false htakes)]
    rfl
  | removeFiles => cases htakes
  | pauseLookup | unpauseLookup | stopLookup | removeLookup => cases hlooks
  | _ => cases hacts

omit [DecidableEq G] in
theorem onTask_keeps (c : Caller) (t : Task) :
    (c.onTask t).1.added = t.added ∧ (c.onTask t).1.callers = t.callers ∧
      (c.onTask t).1.removeCalled = t.removeCalled := by
  cases c with
  | _ => exact ⟨rfl, rfl, rfl⟩

variable {t' : Task} {next : Option Caller}

omit [DecidableEq G] in
/-- A command that goes on as a `remove_with_files` was one. -/
theorem Asked.advance (h : Asked t) (hc : t.callers[i]? = some c)
    (hcallers : t'.callers = advance t.callers i next)
    (hnext : ∀ c', next = some c' → c'.removes = c.removes)
    (hcalled : t'.removeCalled = t.removeCalled)
    (hintent : t'.intent = .remove → t.intent = .remove ∨ c.removes = true)
    (hstatus : t'.status = .removed → t.status = .removed ∨ c.removes = true) : Asked t' := by
  have hmine : c.removes = true → t.removeCalled = true := h.callers c (List.mem_of_getElem? hc)
  refine ⟨fun c' hc' hremoves => ?_, fun hi => ?_, fun hs => ?_⟩
  · rw [hcallers] at hc'
    rw [hcalled]
    cases mem_advance hc hc' with
    | inl hold => exact h.callers c' hold hremoves
    | inr hnew => exact hmine ((hnext c' hnew).symm.trans hremoves)
  · rw [hcalled]
    exact (hintent hi).elim h.intent hmine
  · rw [hcalled]
    exact (hstatus hs).elim h.status hmine

omit [DecidableEq G] in
/-- Only `remove_with_files` wants a task removed, or makes it so. -/
theorem onTask_asked (h : Asked t) (hc : t.callers[i]? = some c) :
    Asked { (c.onTask t).1 with callers := Pool.advance (c.onTask t).1.callers i (c.onTask t).2 } := by
  obtain ⟨-, hcallers, hcalled⟩ := onTask_keeps c t
  refine h.advance hc (by rw [hcallers]) (fun c' hc' => (onTask_next hc').1) hcalled
    (fun hintent => ?_) (fun hstatus => ?_)
  · cases c with
    | removeIntent => exact .inr rfl
    | pauseIntent | unpauseIntent | stopIntent => cases hintent
    | _ => exact .inl hintent
  · cases c with
    | removedStatus => exact .inr rfl
    | pauseStatus | unpauseStatus => cases hstatus
    | _ => exact .inl hstatus

omit [DecidableEq G] in
/-- **A step of a command** on the fields of its task. -/
theorem TaskOk.callerOnTask (h : TaskOk t listed queued) (hc : t.callers[i]? = some c)
    (horderly : c.takesUp t.status = true → Undecided t ∧
      ∀ w ∈ t.workers, w ≠ .picked ∧ w.cleans = false ∧ c ≠ .unpauseRead)
    (hlooks : c.looks = false) (hqueue : c.onQueue = false) :
    TaskOk { (c.onTask t).1 with callers := Pool.advance (c.onTask t).1.callers i (c.onTask t).2 }
      listed queued := by
  obtain ⟨hadded', hcallers', -⟩ := onTask_keeps c t
  have hworkers' := (onTask_frame c t).1
  by_cases hacts : c.acts = true
  · obtain ⟨hadded, w, hworkers, hfits, hpool⟩ := h.busy hc hacts
    refine .living w (c.onTask t).2 (hadded'.trans hadded) (hworkers'.trans hworkers) ?_
      (onTask_fits hfits hacts hqueue)
    have hnext : (c.onTask t).2.filter Caller.acts = (c.onTask t).2 := by
      cases hnext : (c.onTask t).2 with
      | none => rfl
      | some c' => exact Option.filter_some_pos ((onTask_next hnext).2 hacts)
    have hbusy := hpool (c.onTask t).2
    rw [hnext] at hbusy
    rw [hcallers']
    exact hbusy
  have hacts : c.acts = false := Bool.eq_false_iff.mpr hacts
  cases h with
  | unused hadded hworkers hcallers =>
    exact absurd (hcallers c (List.mem_of_getElem? hc)) (by rw [hlooks]; decide)
  | living w a hadded hworkers hbusy hfits =>
    by_cases htakes : c.takesUp t.status = true
    · obtain ⟨hidle, hmeet⟩ := horderly htakes
      obtain rfl := idle_of_undecided hidle hbusy
      have hmem : ∀ x ∈ w, x ∈ t.workers := by
        intro x hx
        rw [hworkers, Option.mem_toList]
        exact hx
      obtain ⟨next, hnext, hnextacts, hfits'⟩ := takesUp_fits hfits
        (fun x hx => ⟨(hmeet x (hmem x hx)).1, (hmeet x (hmem x hx)).2.1⟩)
        (fun hu => Option.eq_none_iff_forall_not_mem.mpr fun x hx => (hmeet x (hmem x hx)).2.2 hu)
        htakes
      rw [hnext]
      refine .living w (some next) (hadded'.trans hadded) (hworkers'.trans hworkers) ?_ hfits'
      rw [hcallers']
      exact hbusy.enter hc hnextacts
    · rw [onTask_refused hacts hlooks (Bool.eq_false_iff.mpr htakes)]
      have hstay : Busy Caller.acts (Pool.advance t.callers i none) a := hbusy.stay hc hacts nofun
      exact .living w a hadded hworkers hstay hfits

omit [DecidableEq G] in
/-- A command that looks for its task finds only one that lives. -/
theorem TaskOk.look [Decidable listed] (h : TaskOk t listed queued) (hc : t.callers[i]? = some c)
    (hacts : c.acts = false) (hacts' : c'.acts = false) :
    TaskOk { t with callers := Pool.advance t.callers i (if listed then some c' else none) }
      listed queued := by
  cases h with
  | unused hadded hworkers hcallers hlisted hqueued hverdict =>
    rw [if_neg hlisted]
    refine .unused hadded hworkers (fun d hd => ?_) hlisted hqueued hverdict
    have hd : d ∈ Pool.advance t.callers i none := hd
    cases mem_advance hc hd with
    | inl hold => exact hcallers d hold
    | inr hnew => cases hnew
  | living w a hadded hworkers hbusy hfits =>
    refine .living w a hadded hworkers (hbusy.stay hc hacts fun d hd => ?_) hfits
    obtain rfl := Option.some.inj (Option.ite_none_right_eq_some.mp hd).2
    exact hacts'

variable {gid : G}

/-- What is done under the lock for one task leaves the others where they are. -/
theorem onInner_others {g : G} (h : s.onInner gid c = some (s', next)) (hg : g ≠ gid) :
    (g ∈ s'.tasks → g ∈ s.tasks) ∧ s'.queue.count g = s.queue.count g := by
  have hfilter : (s.queue.filter (· ≠ gid)).count g = s.queue.count g :=
    List.count_filter (decide_eq_true hg)
  have hgid : [gid].count g = 0 := List.count_eq_zero.mpr fun hm => hg (List.mem_singleton.mp hm)
  cases c with
  | pauseLookup | unpauseLookup | stopLookup | removeLookup | unpauseForget =>
    obtain ⟨rfl, rfl⟩ := Prod.mk.inj (Option.some.inj h)
    exact ⟨id, rfl⟩
  | pauseDequeue | removeDequeue =>
    obtain ⟨rfl, rfl⟩ := Prod.mk.inj (Option.some.inj h)
    exact ⟨id, hfilter⟩
  | unpauseEnqueue =>
    obtain ⟨rfl, rfl⟩ := Prod.mk.inj (Option.some.inj h)
    exact ⟨id, by rw [List.count_append, hgid, Nat.add_zero]⟩
  | removedForget =>
    obtain ⟨rfl, rfl⟩ := Prod.mk.inj (Option.some.inj h)
    exact ⟨fun hm => (List.mem_filter.mp hm).1, rfl⟩
  | _ => cases h

/-- **A step of a command** under the lock, for its own task. -/
theorem TaskOk.callerOnInner (h : TaskOk (s.task gid) (gid ∈ s.tasks) (s.queue.count gid))
    (hc : (s.task gid).callers[i]? = some c) (hinner : s.onInner gid c = some (s', next)) :
    TaskOk { s.task gid with callers := Pool.advance (s.task gid).callers i next }
      (gid ∈ s'.tasks) (s'.queue.count gid) := by
  have hdequeued : (s.queue.filter (· ≠ gid)).count gid = 0 :=
    List.count_eq_zero.mpr fun hm => of_decide_eq_true (List.mem_filter.mp hm).2 rfl
  cases c with
  | pauseLookup | unpauseLookup | stopLookup | removeLookup =>
    obtain ⟨rfl, rfl⟩ := Prod.mk.inj (Option.some.inj hinner)
    exact h.look hc rfl rfl
  | pauseDequeue =>
    obtain ⟨rfl, rfl⟩ := Prod.mk.inj (Option.some.inj hinner)
    obtain ⟨hadded, w, hworkers, hfits, hpool⟩ := h.busy hc rfl
    refine .living w (some .pauseStatus) hadded hworkers (hpool (some .pauseStatus)) ?_
    rw [hdequeued]
    exact pauseDequeue_fits hfits
  | removeDequeue d =>
    obtain ⟨rfl, rfl⟩ := Prod.mk.inj (Option.some.inj hinner)
    obtain ⟨hadded, w, hworkers, hfits, hpool⟩ := h.busy hc rfl
    refine .living w (some (.removedStatus d)) hadded hworkers (hpool (some (.removedStatus d))) ?_
    rw [hdequeued]
    exact removeDequeue_fits hfits
  | unpauseForget =>
    obtain ⟨rfl, rfl⟩ := Prod.mk.inj (Option.some.inj hinner)
    obtain ⟨hadded, w, hworkers, hfits, hpool⟩ := h.busy hc rfl
    exact .living w (some .unpauseSelect) hadded hworkers (hpool (some .unpauseSelect))
      (unpauseForget_fits hfits)
  | unpauseEnqueue =>
    obtain ⟨rfl, rfl⟩ := Prod.mk.inj (Option.some.inj hinner)
    obtain ⟨hadded, w, hworkers, hfits, hpool⟩ := h.busy hc rfl
    refine .living w (some .unpauseStatus) hadded hworkers (hpool (some .unpauseStatus)) ?_
    rw [List.count_append, List.count_singleton_self]
    exact unpauseEnqueue_fits hfits
  | removedForget d =>
    obtain ⟨rfl, rfl⟩ := Prod.mk.inj (Option.some.inj hinner)
    obtain ⟨hadded, w, hworkers, hfits, hpool⟩ := h.busy hc rfl
    refine .living w (some (.removedFiles d)) hadded hworkers (hpool (some (.removedFiles d))) ?_
    exact (removedForget_fits hfits).unlist fun hm => of_decide_eq_true (List.mem_filter.mp hm).2 rfl
  | _ => cases hinner

theorem onInner_isSome (s : Manager G) (gid : G) (c : Caller) :
    (s.onInner gid c).isSome = (c.looks || c.onQueue) := by
  cases c with
  | _ => rfl

theorem onInner_next (h : s.onInner gid c = some (s', next)) (hnext : next = some c') :
    c'.removes = c.removes := by
  subst hnext
  cases c with
  | pauseLookup | unpauseLookup | stopLookup | removeLookup =>
    obtain ⟨-, hnext⟩ := Prod.mk.inj (Option.some.inj h)
    obtain rfl := Option.some.inj (Option.ite_none_right_eq_some.mp hnext).2
    rfl
  | pauseDequeue | removeDequeue | unpauseForget | unpauseEnqueue | removedForget =>
    obtain rfl := Option.some.inj (Prod.mk.inj (Option.some.inj h)).2
    rfl
  | _ => cases h

/-- **A step of a command** keeps the invariant. -/
theorem callerStep_commandsInv (h : s.CommandsInv) (hcaller : (s.task gid).callers[i]? = some c)
    (horderly : s.Orderly (.caller gid i)) (hstep : s.callerStep gid i c = some s')
    (hworkers : s'.WorkersInv) : s'.CommandsInv := by
  unfold callerStep at hstep
  split at hstep
  · rename_i u next hinner
    obtain ⟨-, ⟨⟩⟩ := Option.ite_none_right_eq_some.mp hstep
    obtain ⟨htask, -, -, hsched, -⟩ := onInner_frame hinner
    have hmine := (h.tasks gid).callerOnInner hcaller hinner
    refine h.onTask gid hworkers (fun g hg => ?_)
      (fun g hg => (onInner_others hinner hg).1) (fun g hg => (onInner_others hinner hg).2) ?_ hsched
      ?_ ?_
    · rw [modify_task_ne hg, htask]
    · rw [modify_task_self, htask]
      exact hmine
    · rw [modify_task_self, htask]
    · rw [modify_task_self, htask]
      exact (h.asked gid).advance hcaller rfl (fun c' hc' => onInner_next hinner hc') rfl .inl .inl
  · rename_i hinner
    obtain rfl := Option.some.inj hstep
    have hnone := onInner_isSome s gid c
    rw [hinner] at hnone
    obtain ⟨hlooks, hqueue⟩ := Bool.or_eq_false_iff.mp hnone.symm
    refine h.onTask gid hworkers (fun g hg => modify_task_ne hg) (fun g _ => id)
      (fun g _ => rfl) ?_ rfl ?_ ?_
    · rw [modify_task_self]
      exact (h.tasks gid).callerOnTask hcaller (horderly c hcaller) hlooks hqueue
    · rw [modify_task_self]
      show Worker.picked ∈ (c.onTask (s.task gid)).1.workers ↔ _
      rw [(onTask_frame c (s.task gid)).1]
    · rw [modify_task_self]
      exact onTask_asked (h.asked gid) hcaller

/-! ## The scheduler -/

omit [DecidableEq G] in
theorem Asked.congr (h : Asked t) (hcallers : t'.callers = t.callers)
    (hcalled : t'.removeCalled = t.removeCalled)
    (hintent : t'.intent = .remove → t.intent = .remove)
    (hstatus : t'.status = .removed → t.status = .removed ∨ t.intent = .remove) : Asked t' := by
  refine ⟨fun c hc hremoves => ?_, fun hi => ?_, fun hs => ?_⟩
  · rw [hcallers] at hc
    rw [hcalled]
    exact h.callers c hc hremoves
  · rw [hcalled]
    exact h.intent (hintent hi)
  · rw [hcalled]
    exact (hstatus hs).elim h.status h.intent

omit [DecidableEq G] in
theorem TaskOk.spawn (h : TaskOk t listed queued) : TaskOk t.spawn listed queued := by
  cases h with
  | unused hadded hworkers hcallers hlisted hqueued hverdict =>
    exact .unused hadded (by rw [Task.spawn, hworkers, List.map_nil]) hcallers hlisted hqueued hverdict
  | living w a hadded hworkers hbusy hfits =>
    cases w with
    | none => exact .living none a hadded (by rw [Task.spawn, hworkers]; rfl) hbusy hfits
    | some x =>
      refine .living (some (if x = .started then .spawned else x)) a hadded ?_ hbusy (spawn_fits hfits)
      rw [Task.spawn, hworkers]
      rfl

/-- `fill_slots` takes a task that waits at the head of the queue. -/
theorem pick_commandsInv {rest : List G} (h : s.CommandsInv) (hsched : s.sched = .head)
    (hqueue : s.queue = gid :: rest) (htask : gid ∈ s.tasks)
    (hwaiting : (s.task gid).status = .waiting) (hidle : Undecided (s.task gid))
    (hworkers : (s.pick gid rest).WorkersInv) : (s.pick gid rest).CommandsInv := by
  have hnew : TaskOk (s.task gid).pick (gid ∈ s.tasks) (rest.count gid) ∧
      (s.task gid).pick.workers = [.picked] := by
    have hmine := h.tasks gid
    rw [hqueue, List.count_cons_self] at hmine
    cases hmine with
    | unused hadded hw hcallers hlisted hqueued hverdict => cases hqueued
    | living w a hadded hw hbusy hfits =>
      obtain rfl := idle_of_undecided hidle hbusy
      obtain ⟨rfl, hcount, hfits'⟩ := take_fits hfits htask hwaiting
      rw [hcount]
      have hpicked : (s.task gid).pick.workers = [.picked] := by
        rw [Task.pick, hw]
        rfl
      exact ⟨.living (some .picked) none hadded hpicked hbusy hfits', hpicked⟩
  refine h.replace gid hworkers (fun g hg => pick_task_ne hg) (fun _ _ => id)
    (fun g hg => ?_) ?_ (fun g => ?_) ?_
  · rw [hqueue]
    exact (List.count_cons_of_ne (Ne.symm hg)).symm
  · rw [pick_task_self]
    exact hnew.1
  · show _ ↔ Sched.activate gid = Sched.activate g
    by_cases hg : g = gid
    · rw [hg, pick_task_self, hnew.2]
      exact ⟨fun _ => rfl, fun _ => List.mem_singleton_self _⟩
    · rw [pick_task_ne hg, h.picked g, hsched]
      constructor
      · intro he
        cases he
      · intro he
        exact absurd (Sched.activate.inj he).symm hg
  · rw [pick_task_self]
    exact (h.asked gid).congr rfl rfl id .inl

/-- The task that `fill_slots` has taken becomes active. -/
theorem activate_commandsInv (h : s.CommandsInv) (hsched : s.sched = .activate gid)
    (hworkers : (s.activate gid).WorkersInv) : (s.activate gid).CommandsInv := by
  have hpicked : Worker.picked ∈ (s.task gid).workers := (h.picked gid).mpr hsched
  have hnew : TaskOk (s.task gid).activate (gid ∈ s.tasks) (s.queue.count gid) ∧
      (s.task gid).activate.workers = [.started] := by
    cases h.tasks gid with
    | unused hadded hw =>
      rw [hw] at hpicked
      cases hpicked
    | living w a hadded hw hbusy hfits =>
      rw [hw, Option.mem_toList] at hpicked
      obtain rfl := hpicked
      have hstarted : (s.task gid).activate.workers = [.started] := by
        rw [Task.activate, hw]
        rfl
      exact ⟨.living (some .started) a hadded hstarted hbusy (activate_fits hfits), hstarted⟩
  refine h.replace gid hworkers (fun g hg => activate_task_ne hg) (fun _ _ => id)
    (fun _ _ => rfl) ?_ (fun g => ?_) ?_
  · rw [activate_task_self]
    exact hnew.1
  · show _ ↔ Sched.head = Sched.activate g
    constructor
    · intro hp
      by_cases hg : g = gid
      · rw [hg, activate_task_self, hnew.2] at hp
        cases List.mem_singleton.mp hp
      · rw [activate_task_ne hg, h.picked g, hsched] at hp
        exact absurd (Sched.activate.inj hp).symm hg
    · intro he
      cases he
  · rw [activate_task_self]
    exact (h.asked gid).congr rfl rfl id fun he => by cases he

/-- The section of `fill_slots` is over. -/
theorem spawnAll_commandsInv (h : s.CommandsInv) (hsched : s.sched = .head)
    (hworkers : s.spawnAll.WorkersInv) : s.spawnAll.CommandsInv := by
  refine ⟨hworkers, fun g => (h.tasks g).spawn, fun g => ?_, fun g => ?_⟩
  · show _ ↔ Sched.idle = Sched.activate g
    constructor
    · intro hpicked
      obtain ⟨w, hw, hpicked⟩ := List.mem_map.mp hpicked
      by_cases hstarted : w = .started
      · rw [if_pos hstarted] at hpicked
        cases hpicked
      · rw [if_neg hstarted] at hpicked
        subst hpicked
        cases hsched.symm.trans ((h.picked g).mp hw)
    · intro he
      cases he
  · exact (h.asked g).congr rfl rfl id .inl

/-- **A step of `fill_slots`** keeps the invariant. -/
theorem schedStep_commandsInv (h : s.CommandsInv) (horderly : s.Orderly .fill)
    (hstep : s.schedStep = some s') (hworkers : s'.WorkersInv) : s'.CommandsInv := by
  cases schedStep_move hstep with
  | enter hsched hfree =>
    refine ⟨hworkers, h.tasks, fun g => (h.picked g).trans ?_, h.asked⟩
    rw [hsched]
    constructor
    · intro he
      cases he
    · intro he
      cases he
  | leave hsched hdone => exact spawnAll_commandsInv h hsched hworkers
  | skip gid rest hsched hqueue hstale hslot =>
    refine h.onTask gid hworkers (fun _ _ => rfl) (fun _ _ => id) (fun g hg => ?_) ?_ rfl
      Iff.rfl (h.asked gid)
    · rw [hqueue]
      exact (List.count_cons_of_ne (Ne.symm hg)).symm
    · have hidle : Undecided (s.task gid) :=
        horderly hsched hslot gid (by rw [hqueue]; exact Option.mem_some_self gid)
      have hmine := h.tasks gid
      rw [hqueue, List.count_cons_self] at hmine
      cases hmine with
      | unused hadded hw hcallers hlisted hqueued hverdict => cases hqueued
      | living w a hadded hw hbusy hfits =>
        obtain rfl := idle_of_undecided hidle hbusy
        exact .living w none hadded hw hbusy (skip_fits hfits hstale)
  | take gid rest hsched hqueue htask hwaiting hslot =>
    refine pick_commandsInv h hsched hqueue htask hwaiting (horderly hsched hslot gid ?_) hworkers
    rw [hqueue]
    exact Option.mem_some_self gid
  | activate gid hsched => exact activate_commandsInv h hsched hworkers

/-! ## Workers -/

variable {w : Worker}

omit [DecidableEq G] in
/-- The phase of a task that a worker is at work for. -/
theorem TaskOk.worker (h : TaskOk t listed queued) (hw : t.workers[i]? = some w) :
    i = 0 ∧ t.workers = [w] ∧ t.added = true ∧
      ∃ a, Busy Caller.acts t.callers a ∧ Fits (some w) a t.view listed queued := by
  cases h with
  | unused hadded hworkers =>
    rw [hworkers] at hw
    cases hw
  | living x a hadded hworkers hbusy hfits =>
    cases x with
    | none =>
      rw [hworkers] at hw
      cases hw
    | some x =>
      rw [hworkers] at hw
      cases i with
      | zero =>
        obtain rfl := Option.some.inj hw
        exact ⟨rfl, hworkers, hadded, a, hbusy, hfits⟩
      | succ i => cases hw

omit [DecidableEq G] in
/-- The final status is that of a removed task only when it was to be removed. -/
theorem finalStatus_asked {result : DriveResult} (h : Asked t)
    (hdrives : result.failure? = some .cancelled → t.intent ≠ .none) :
    (t.finalStatus result).1.added = t.added ∧ (t.finalStatus result).1.callers = t.callers ∧
      Asked (t.finalStatus result).1 := by
  unfold Task.finalStatus
  cases hfailure : result.failure? with
  | none => exact ⟨rfl, rfl, h.congr rfl rfl id nofun⟩
  | some failure =>
    cases failure with
    | other errorCode message => exact ⟨rfl, rfl, h.congr rfl rfl id nofun⟩
    | cancelled =>
      cases hintent : t.intent with
      | none => exact absurd hintent (hdrives hfailure)
      | remove => exact ⟨rfl, rfl, h.congr rfl rfl (fun _ => hintent) fun _ => .inr hintent⟩
      | pause | stopSeeding | restart =>
        exact ⟨rfl, rfl, h.congr rfl rfl nofun nofun⟩

omit [DecidableEq G] in
/-- A step of a worker leaves the commands alone, and nobody unasked removes the task. -/
theorem workerOnTask_asked {w' : Worker} (h : Asked t)
    (hfits : Fits (some w) a t.view listed queued) (hstep : w.onTask t = some (t', w')) :
    t'.added = t.added ∧ t'.callers = t.callers ∧ Asked t' := by
  cases w with
  | ended result =>
    obtain ⟨rfl, rfl⟩ := Prod.mk.inj (Option.some.inj hstep)
    exact finalStatus_asked h (hfits.phase.worker.2.1 rfl).2.2.2
  | restartIntent =>
    obtain ⟨rfl, rfl⟩ := Prod.mk.inj (Option.some.inj hstep)
    exact ⟨rfl, rfl, h.congr rfl rfl nofun .inl⟩
  | spawned | written | removing | cleaning | checkingStatus | checkingIntent | restartToken =>
    obtain ⟨rfl, rfl⟩ := Prod.mk.inj (Option.some.inj hstep)
    exact ⟨rfl, rfl, h.congr rfl rfl id .inl⟩
  | _ => cases hstep

omit [DecidableEq G] in
/-- Only `fill_slots` takes a task from the queue. -/
theorem workerOnTask_not_picked {w' : Worker} (h : w.onTask t = some (t', w')) :
    w ≠ .picked ∧ w' ≠ .picked := by
  cases w with
  | written | cleaning | checkingStatus | checkingIntent =>
    obtain ⟨-, rfl⟩ := Prod.mk.inj (Option.some.inj h)
    refine ⟨nofun, ?_⟩
    split
    · nofun
    · nofun
  | spawned | ended | removing | restartIntent | restartToken =>
    obtain ⟨-, rfl⟩ := Prod.mk.inj (Option.some.inj h)
    exact ⟨nofun, nofun⟩
  | _ => cases h

/-- **The last step of a worker**, for its own task and for the others. -/
theorem release_taskOk (hrelease : s.release gid w = some s')
    (hfits : Fits (some w) a (s.task gid).view (gid ∈ s.tasks) (s.queue.count gid)) :
    s'.task = s.task ∧
      Fits none a (s.task gid).view (gid ∈ s'.tasks) (s'.queue.count gid) ∧
      ∀ g, g ≠ gid → (g ∈ s'.tasks → g ∈ s.tasks) ∧ s'.queue.count g = s.queue.count g := by
  cases w with
  | dropping =>
    cases hrelease
    refine ⟨rfl, (dropping_fits hfits).unlist fun hm => ?_, fun g hg => ⟨fun hm => ?_, rfl⟩⟩
    · exact of_decide_eq_true (List.mem_filter.mp hm).2 rfl
    · exact (List.mem_filter.mp hm).1
  | restartEnqueue =>
    cases hrelease
    refine ⟨rfl, ?_, fun g hg => ⟨id, ?_⟩⟩
    · rw [List.count_append, List.count_singleton_self]
      exact restartEnqueue_fits hfits
    · rw [List.count_append, List.count_eq_zero.mpr fun hm => hg (List.mem_singleton.mp hm),
        Nat.add_zero]
  | pausing => exact (hfits.phase.worker.2.2.2 rfl).2.elim
  | stopping terminal =>
    cases terminal with
    | false =>
      cases hrelease
      exact ⟨rfl, stopping_fits hfits, fun g hg => ⟨id, rfl⟩⟩
    | true =>
      cases hrelease
      exact ⟨rfl, stopping_fits hfits, fun g hg => ⟨fun hm => (List.mem_filter.mp hm).1, rfl⟩⟩
  | _ => cases hrelease

/-- **A step of a worker** keeps the invariant. -/
theorem workerStep_commandsInv (h : s.CommandsInv) (hw : (s.task gid).workers[i]? = some w)
    (horderly : s.Orderly (.worker gid i)) (hstep : s.workerStep gid i w = some s')
    (hworkers' : s'.WorkersInv) : s'.CommandsInv := by
  obtain ⟨rfl, hworkers, hadded, a, hbusy, hfits⟩ := (h.tasks gid).worker hw
  unfold workerStep at hstep
  split at hstep
  · rename_i terminal
    obtain ⟨-, ⟨⟩⟩ := Option.ite_none_right_eq_some.mp hstep
    obtain rfl := idle_of_undecided (horderly _ hw rfl).1 hbusy
    refine h.onTask gid hworkers' (fun g hg => modify_task_ne hg) (fun _ _ => id)
      (fun _ _ => rfl) ?_ rfl ?_ ?_
    · rw [modify_task_self]
      refine .living (some (.cleaning terminal)) none hadded ?_ hbusy (leaving_fits hfits)
      show (s.task gid).workers.set 0 _ = _
      rw [hworkers]
      rfl
    · rw [modify_task_self]
      show Worker.picked ∈ (s.task gid).workers.set 0 _ ↔ _
      rw [hworkers, List.set_cons_zero, List.mem_singleton, List.mem_singleton]
      constructor
      · intro he
        cases he
      · intro he
        cases he
    · rw [modify_task_self]
      exact (h.asked gid).congr rfl rfl id .inl
  · split at hstep
    · rename_i t' w' htask
      obtain rfl := Option.some.inj hstep
      have hended : ∀ result, w = .ended result →
          a = none ∧ ((s.task gid).intent = .remove → result.failure? = some .cancelled) := by
        rintro result rfl
        obtain ⟨hidle, hremove⟩ := horderly _ hw rfl
        exact ⟨idle_of_undecided hidle hbusy, fun hi => of_decide_eq_true (hremove hi)⟩
      obtain ⟨hadded', hcallers', hasked⟩ := workerOnTask_asked (h.asked gid) hfits htask
      have hset : t'.workers.set 0 w' = [w'] := by
        rw [(Worker.onTask_frame htask).1, hworkers, List.set_cons_zero]
      have hpicked := workerOnTask_not_picked htask
      refine h.onTask gid hworkers' (fun g hg => modify_task_ne hg) (fun _ _ => id)
        (fun _ _ => rfl) ?_ rfl ?_ ?_
      · rw [modify_task_self]
        have hfits' := workerOnTask_fits hfits htask hended
        refine .living (some w') a (hadded'.trans hadded) hset ?_ hfits'
        show Busy Caller.acts t'.callers a
        rw [hcallers']
        exact hbusy
      · rw [modify_task_self]
        show Worker.picked ∈ t'.workers.set 0 w' ↔ _
        rw [hset, hworkers, List.mem_singleton, List.mem_singleton]
        exact ⟨fun he => absurd he.symm hpicked.2, fun he => absurd he.symm hpicked.1⟩
      · rw [modify_task_self]
        exact hasked.congr rfl rfl id .inl
    · obtain ⟨u, hrelease, rfl⟩ := Option.map_eq_some_iff.mp hstep
      obtain ⟨hclean, -, hsched, -, -⟩ := release_frame hrelease
      obtain ⟨htask, hfits', hrest⟩ := release_taskOk hrelease hfits
      refine h.onTask gid hworkers' (fun g hg => ?_) (fun g hg => (hrest g hg).1)
        (fun g hg => (hrest g hg).2) ?_ hsched ?_ ?_
      · rw [modify_task_ne hg, htask]
      · rw [modify_task_self, htask]
        refine .living none a hadded ?_ hbusy hfits'
        show (s.task gid).workers.eraseIdx 0 = _
        rw [hworkers]
        rfl
      · rw [modify_task_self, htask]
        show Worker.picked ∈ (s.task gid).workers.eraseIdx 0 ↔ _
        rw [hworkers, List.eraseIdx_zero, List.tail_cons, List.mem_singleton]
        refine ⟨nofun, fun he => ?_⟩
        subst he
        cases hclean
      · rw [modify_task_self, htask]
        exact (h.asked gid).congr rfl rfl id .inl

/-! ## The drive, new tasks and new commands -/

theorem driveEnds_commandsInv {result : DriveResult} (h : s.CommandsInv)
    (horderly : s.Orderly (.driveEnds gid i result))
    (hstep : s.step (.driveEnds gid i result) = some s') (hworkers' : s'.WorkersInv) :
    s'.CommandsInv := by
  rw [step] at hstep
  split at hstep
  · rename_i token ticked hw
    obtain ⟨hpossible, ⟨⟩⟩ := Option.ite_none_right_eq_some.mp hstep
    obtain ⟨rfl, hworkers, hadded, a, hbusy, hfits⟩ := (h.tasks gid).worker hw
    refine h.onTask gid hworkers' (fun g hg => modify_task_ne hg) (fun _ _ => id)
      (fun _ _ => rfl) ?_ rfl ?_ ?_
    · rw [modify_task_self]
      refine .living (some (.ended result)) a hadded ?_ hbusy (driveEnds_fits hfits hpossible ?_)
      · show (s.task gid).workers.set 0 _ = _
        rw [hworkers]
        rfl
      · rintro message rfl hmessage
        exact horderly hmessage
    · rw [modify_task_self]
      show Worker.picked ∈ (s.task gid).workers.set 0 _ ↔ _
      rw [hworkers, List.set_cons_zero, List.mem_singleton, List.mem_singleton]
      constructor
      · intro he
        cases he
      · intro he
        cases he
    · rw [modify_task_self]
      exact (h.asked gid).congr rfl rfl id .inl
  · cases hstep

omit [DecidableEq G] in
theorem tick_asked {token : Nat} {ticked : Bool} {tick : Tick} (h : Asked t)
    (hstep : t.tick i token ticked tick = some t') :
    t'.added = t.added ∧ t'.callers = t.callers ∧ Asked t' := by
  cases tick with
  | seeding =>
    obtain ⟨-, ⟨⟩⟩ := Option.ite_none_right_eq_some.mp hstep
    exact ⟨rfl, rfl, h.congr rfl rfl id nofun⟩
  | selection restart =>
    obtain ⟨-, ⟨⟩⟩ := Option.ite_none_right_eq_some.mp hstep
    refine ⟨rfl, rfl, h.congr rfl rfl (fun hi => ?_) .inl⟩
    cases restart with
    | true => cases hi
    | false => cases hi
  | cancel =>
    obtain ⟨-, ⟨⟩⟩ := Option.ite_none_right_eq_some.mp hstep
    exact ⟨rfl, rfl, h.congr rfl rfl id .inl⟩

theorem tick_commandsInv {tick : Tick} (h : s.CommandsInv)
    (hstep : s.step (.tick gid i tick) = some s') (hworkers' : s'.WorkersInv) : s'.CommandsInv := by
  rw [step] at hstep
  split at hstep
  · rename_i token ticked hw
    obtain ⟨t', htick, rfl⟩ := Option.map_eq_some_iff.mp hstep
    obtain ⟨rfl, hworkers, hadded, a, hbusy, hfits⟩ := (h.tasks gid).worker hw
    obtain ⟨ticked', hnew, hfits'⟩ := tick_fits hfits hworkers htick
    obtain ⟨hadded', hcallers', hasked⟩ := tick_asked (h.asked gid) htick
    refine h.onTask gid hworkers' (fun g hg => modify_task_ne hg) (fun _ _ => id)
      (fun _ _ => rfl) ?_ rfl ?_ ?_
    · rw [modify_task_self]
      rw [← hcallers'] at hbusy
      exact .living (some (.driving token ticked')) a (hadded'.trans hadded) hnew hbusy hfits'
    · rw [modify_task_self, hnew, hworkers, List.mem_singleton, List.mem_singleton]
      constructor
      · intro he
        cases he
      · intro he
        cases he
    · rw [modify_task_self]
      exact hasked
  · cases hstep

theorem enqueueAt_count (s : Manager G) (gid g : G) (position : Option Nat) :
    (s.enqueueAt gid position).count g = s.queue.count g + [gid].count g := by
  cases position with
  | none => exact List.count_append
  | some pos =>
    have hperm := List.perm_insertIdx gid s.queue (Nat.min_le_right pos s.queue.length)
    rw [enqueueAt, hperm.count_eq, ← List.singleton_append, List.count_append, Nat.add_comm]

/-- A new task waits in the queue. -/
theorem add_commandsInv {isBt : Bool} {position : Option Nat} (h : s.CommandsInv)
    (hstep : s.step (.add gid isBt position) = some s') (hworkers' : s'.WorkersInv) :
    s'.CommandsInv := by
  obtain ⟨⟨hnew, -⟩, ⟨⟩⟩ := Option.ite_none_right_eq_some.mp hstep
  refine h.onTask gid hworkers' (fun g hg => modify_task_ne hg) (fun g hg hm => ?_)
    (fun g hg => ?_) ?_ rfl ?_ ?_
  · cases List.mem_append.mp hm with
    | inl hold => exact hold
    | inr hmine => exact absurd (List.mem_singleton.mp hmine) hg
  · show (s.enqueueAt gid position).count g = _
    rw [enqueueAt_count, List.count_eq_zero.mpr fun hm => hg (List.mem_singleton.mp hm), Nat.add_zero]
  · rw [modify_task_self]
    show TaskOk _ (gid ∈ s.tasks ++ [gid]) ((s.enqueueAt gid position).count gid)
    rw [enqueueAt_count, List.count_singleton_self]
    cases h.tasks gid with
    | living w a hadded =>
      rw [hnew] at hadded
      cases hadded
    | unused hadded hworkers hcallers hlisted hqueued hverdict =>
      rw [hqueued]
      have hidle : ∀ c ∈ (s.task gid).callers, c.acts = false := by
        intro c hc
        have hlooks := hcallers c hc
        cases c with
        | pauseLookup | unpauseLookup | stopLookup | removeLookup => rfl
        | _ => cases hlooks
      exact .living none none rfl hworkers (Busy.none_iff.mpr hidle)
        (.idle (.waiting none 1 rfl rfl rfl nofun (Nat.le_refl 1) fun _ => rfl) nofun nofun)
  · rw [modify_task_self]
    rfl
  · rw [modify_task_self]
    exact (h.asked gid).congr rfl rfl nofun nofun

theorem call_commandsInv {command : Command} (h : s.CommandsInv)
    (hworkers' : (s.modify gid (Task.call command)).WorkersInv) :
    (s.modify gid (Task.call command)).CommandsInv := by
  have hstart : command.start.looks = true ∧ command.start.acts = false := by
    cases command with
    | _ => exact ⟨rfl, rfl⟩
  refine h.onTask gid hworkers' (fun g hg => modify_task_ne hg) (fun _ _ => id)
    (fun _ _ => rfl) ?_ rfl ?_ ?_
  · rw [modify_task_self]
    cases h.tasks gid with
    | unused hadded hworkers hcallers hlisted hqueued hverdict =>
      refine .unused hadded hworkers (fun c hc => ?_) hlisted hqueued hverdict
      cases List.mem_append.mp hc with
      | inl hold => exact hcallers c hold
      | inr hmine => exact List.mem_singleton.mp hmine ▸ hstart.1
    | living w a hadded hworkers hbusy hfits =>
      refine .living w a hadded hworkers ?_ hfits
      show ((s.task gid).callers ++ [command.start]).filter Caller.acts = _
      rw [List.filter_append, List.filter_cons_of_neg (by rw [hstart.2]; decide), List.filter_nil,
        List.append_nil]
      exact hbusy
  · rw [modify_task_self]
    rfl
  · rw [modify_task_self]
    have hasked := h.asked gid
    cases command with
    | remove d => exact ⟨fun _ _ _ => rfl, fun _ => rfl, fun _ => rfl⟩
    | pause | unpause | stopSeeding =>
      refine ⟨fun c hc hremoves => ?_, hasked.intent, hasked.status⟩
      cases List.mem_append.mp hc with
      | inl hold => exact hasked.callers c hold hremoves
      | inr hmine =>
        obtain rfl := List.mem_singleton.mp hmine
        cases hremoves

theorem awaits_commandsInv {awaitsFiles : Bool} (h : s.CommandsInv)
    (hworkers' : (s.modify gid fun t => { t with awaitsFiles }).WorkersInv) :
    (s.modify gid fun t => { t with awaitsFiles }).CommandsInv := by
  refine h.onTask gid hworkers' (fun g hg => modify_task_ne hg) (fun _ _ => id)
    (fun _ _ => rfl) ?_ rfl ?_ ?_
  · rw [modify_task_self]
    cases h.tasks gid with
    | unused hadded hworkers hcallers hlisted hqueued hverdict =>
      exact .unused hadded hworkers hcallers hlisted hqueued hverdict
    | living w a hadded hworkers hbusy hfits => exact .living w a hadded hworkers hbusy hfits
  · rw [modify_task_self]
  · rw [modify_task_self]
    exact (h.asked gid).congr rfl rfl id .inl

/-! ## Runs -/

/-- **One orderly step** keeps the invariant. -/
theorem step_commandsInv (s : Manager G) (e : Event G) (s' : Manager G) (h : s.CommandsInv)
    (horderly : s.Orderly e) (hstep : s.step e = some s') : s'.CommandsInv := by
  have hworkers := step_workersInv s e s' h.workers (undisturbed_of_orderly h horderly) hstep
  cases e with
  | add gid isBt position => exact add_commandsInv h hstep hworkers
  | call gid command =>
    obtain rfl := Option.some.inj hstep
    exact call_commandsInv h hworkers
  | caller gid i =>
    rw [step] at hstep
    split at hstep
    · rename_i c hcaller
      exact callerStep_commandsInv h hcaller horderly hstep hworkers
    · cases hstep
  | fill => exact schedStep_commandsInv h horderly hstep hworkers
  | worker gid i =>
    rw [step] at hstep
    split at hstep
    · rename_i w hw
      exact workerStep_commandsInv h hw horderly hstep hworkers
    · cases hstep
  | driveEnds gid i result => exact driveEnds_commandsInv h horderly hstep hworkers
  | tick gid i tick => exact tick_commandsInv h hstep hworkers
  | awaits gid awaitsFiles =>
    obtain rfl := Option.some.inj hstep
    exact awaits_commandsInv h hworkers

/-- The drive has ended and the worker not written its status when `remove_with_files` reads an active
one: its intent and its cancellation are not looked at any more. -/
def removeAtTheEnd : List (Event Unit) :=
  [Event.add () false none, .fill, .fill, .fill, .fill, .worker () 0, .driveEnds () 0 .ok,
    .call () (.remove true)] ++ List.replicate 5 (Event.caller () 0) ++ List.replicate 6 (Event.worker () 0)

/-- `unpause` puts a paused task into the queue, `fill_slots` throws it out again, and only then does
`unpause` write that it waits. -/
def unpauseOverFill : List (Event Unit) :=
  [Event.add () false none, .call () .pause] ++ List.replicate 4 (Event.caller () 0) ++ [Event.call () .unpause] ++
    List.replicate 7 (Event.caller () 0) ++ [Event.fill, .fill, .fill, .caller () 0]

/-- The task is left waiting outside the queue. -/
theorem unpauseOverFill_not_kept :
    ∃ t, StepRun.run step (initial 1 : Manager Unit) unpauseOverFill = some t ∧
      (t.task ()).status = .waiting ∧ t.queue = [] ∧ ¬t.CommandsKept := by
  have hrun : (StepRun.run step (initial 1 : Manager Unit) unpauseOverFill).map
      (fun t => ((t.task ()).callers, (t.task ()).workers, (t.task ()).status, t.tasks, t.queue)) =
        some ([], [], .waiting, [()], []) := by
    decide +kernel
  obtain ⟨t, ht, hend⟩ := Option.map_eq_some_iff.mp hrun
  simp only [Prod.mk.injEq] at hend
  obtain ⟨hcallers, hworkers, hstatus, htasks, hqueue⟩ := hend
  refine ⟨t, ht, hstatus, hqueue, fun h => ?_⟩
  have hcount := h.queued (fun _ => ⟨hcallers, hworkers⟩) ()
    (by rw [htasks]; exact List.mem_singleton_self ()) hstatus
  rw [hqueue] at hcount
  cases hcount

/-- The engine of a BT task fails with a text that has the words of a cancellation in it. -/
def failureSaysCancelled : List (Event Unit) :=
  [.add () true none, .fill, .fill, .fill, .fill, .worker () 0,
    .driveEnds () 0 (.btFailed cancelText), .worker () 0]

/-- The task is a removed one that nobody wanted removed. -/
theorem failureSaysCancelled_not_kept :
    ∃ t, StepRun.run step (initial 1 : Manager Unit) failureSaysCancelled = some t ∧
      (t.task ()).status = .removed ∧ (t.task ()).removeCalled = false ∧ ¬t.CommandsKept := by
  have hrun : (StepRun.run step (initial 1 : Manager Unit) failureSaysCancelled).map
      (fun t => ((t.task ()).status, (t.task ()).removeCalled)) = some (.removed, false) := by
    decide +kernel
  obtain ⟨t, ht, hend⟩ := Option.map_eq_some_iff.mp hrun
  obtain ⟨hstatus, hcalled⟩ := Prod.mk.inj hend
  refine ⟨t, ht, hstatus, hcalled, fun h => ?_⟩
  rw [h.asked () hstatus] at hcalled
  cases hcalled

end Manager
end XferRust.Engine
