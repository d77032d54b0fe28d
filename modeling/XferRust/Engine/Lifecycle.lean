import XferRust.Engine.Workers

/-! # The life of a task

As long as no two commands work on a task at once, and none of them meets `fill_slots` or the end of
a worker in the middle of its work, a task goes through phases: it waits in the queue, a worker is
started for it, runs, writes its final status and cleans up; between workers it rests.  `Phase` lists
them with the commands that may be at work in each, and `Fits` adds what the command at work and the
last command that returned know about the task.
-/
namespace XferRust.Engine
open Pool

/-! ## Commands at work -/

/-- The command has taken its first decision. -/
def Caller.acts : Caller → Bool
  | .pauseLookup | .pauseRead | .unpauseLookup | .unpauseRead | .stopLookup | .stopRead
  | .removeLookup _ | .removeFiles _ => false
  | _ => true

/-- The command goes on after its first decision, with a task in this status. -/
def Caller.takesUp (status : Status) : Caller → Bool
  | .pauseRead => status = .waiting || status = .active || status = .seeding
  | .unpauseRead => status = .paused || status = .error
  | .stopRead => status = .seeding
  | .removeFiles _ => true
  | _ => false

/-- The commands at work on a task that waits in the queue. -/
def Caller.whileWaiting : Caller → Bool
  | .pauseDequeue | .removeRead _ | .removeDequeue _ => true
  | _ => false

/-- The commands that have taken a waiting task out of the queue. -/
def Caller.whileDequeued : Caller → Bool
  | .pauseStatus | .removedStatus _ => true
  | _ => false

/-- The commands at work on a task that rests. -/
def Caller.whileResting : Caller → Bool
  | .unpauseClear | .unpauseForget | .unpauseSelect | .unpauseToken | .unpauseIntent
  | .unpauseFiles | .unpauseEnqueue | .removeRead _ | .removedStatus _ | .removedForget _
  | .removedFiles _ => true
  | _ => false

/-- The commands at work on a task whose worker is. -/
def Caller.whileRunning : Caller → Bool
  | .pauseIntent | .pauseCancel | .stopIntent | .stopCancel | .removeRead _ | .removeIntent _
  | .removeCancel _ => true
  | _ => false

/-- The commands at work on a task between the final status of its worker and the cleanup. -/
def Caller.whileFinal : Caller → Bool
  | .pauseDequeue | .pauseStatus | .removeRead _ | .removeDequeue _ | .removedStatus _
  | .removedForget _ | .removedFiles _ => true
  | _ => false

/-! ## Phases -/

/-- What the phases of a task are about. -/
structure View where
  status : Status
  intent : Intent
  token : Nat
  cancelled : List Nat
  deleteFiles : Bool
  files : Bool
  verdict : Option Verdict

def Task.view (t : Task) : View where
  status := t.status
  intent := t.intent
  token := t.token
  cancelled := t.cancelled
  deleteFiles := t.deleteFiles
  files := t.files
  verdict := t.verdict

/-- The current token has not been cancelled. -/
def View.Fresh (v : View) : Prop := v.token ∉ v.cancelled

/-- `unpause` accepts the task. -/
def View.Halted (v : View) : Prop := v.status = .paused ∨ v.status = .error

/-- The final status of a worker: rest, or waiting to be put into the queue again. -/
def View.Settled (v : View) : Prop :=
  v.status.rests = true ∨ v.status = .waiting ∧ v.intent = .restart

/-- The worker has written its final status and not cleaned up. -/
def Worker.isFinal : Worker → Bool
  | .written _ | .removing _ | .leaving _ => true
  | _ => false

/-- The worker has passed the place where it deletes the files of a removed task. -/
def Worker.sweptFiles : Worker → Bool
  | .leaving _ => true
  | w => w.cleans

/-- A worker is at work for a task in this status. -/
def Status.works : Status → Bool
  | .active | .seeding => true
  | _ => false

theorem Status.not_rests {status : Status} (h : status.works = true) : status.rests = false := by
  cases status with
  | active | seeding => rfl
  | _ => cases h

/-- What a worker at work knows. -/
def Worker.Drives (v : View) : Worker → Prop
  | .driving token ticked => token = v.token ∧ (ticked = true → v.intent ≠ .none)
  | .ended result => result.failure? = some .cancelled → v.intent ≠ .none
  | _ => True

/-- What a worker in its cleanup knows. -/
def Worker.Tidies (v : View) : Worker → Prop
  | .cleaning _ => v.Settled
  | .dropping => v.status = .removed
  | .checkingStatus _ =>
    v.status.rests = true ∧ v.status ≠ .removed ∨ v.status = .waiting ∧ v.intent = .restart
  | .checkingIntent | .restartIntent => v.status = .waiting ∧ v.intent = .restart
  | .restartToken => v.status = .waiting ∧ v.intent = .none
  | .restartEnqueue => v.status = .waiting ∧ v.intent = .none ∧ v.Fresh
  | .stopping _ => v.status.rests = true ∧ v.status ≠ .removed
  | _ => False

/-- The phases of a task: with its worker, the command at work, and how often it is in the queue. -/
inductive Phase (v : View) (listed : Prop) : Option Worker → Option Caller → Nat → Prop
  | waiting (a : Option Caller) (queued : Nat) (ha : a.all Caller.whileWaiting = true)
    (hstatus : v.status = .waiting) (hintent : v.intent = .none) (hfresh : v.Fresh)
    (hqueued : queued ≤ 1) (hlisted : listed → queued = 1) : Phase v listed none a queued
  | dequeued (c : Caller) (hc : c.whileDequeued = true) (hstatus : v.status = .waiting) :
    Phase v listed none (some c) 0
  | resting (a : Option Caller) (ha : a.all Caller.whileResting = true)
    (hstatus : v.status.rests = true) : Phase v listed none a 0
  | enqueued : Phase v listed none (some .unpauseStatus) 1
  | picked (hstatus : v.status = .waiting) (hintent : v.intent = .none) (hfresh : v.Fresh) :
    Phase v listed (some .picked) none 0
  | running (w : Worker) (a : Option Caller) (hw : w.runs = true)
    (ha : a.all Caller.whileRunning = true) (hstatus : v.status.works = true)
    (hcancel : v.token ∈ v.cancelled → v.intent ≠ .none) (hdrives : w.Drives v) :
    Phase v listed (some w) a 0
  | final (w : Worker) (a : Option Caller) (hw : w.isFinal = true)
    (ha : a.all Caller.whileFinal = true) (hstatus : v.Settled) : Phase v listed (some w) a 0
  | cleaning (w : Worker) (hw : w.cleans = true) (htidies : w.Tidies v) :
    Phase v listed (some w) none 0

/-- What the command at work knows. -/
def Caller.Knows (v : View) (listed : Prop) : Caller → Prop
  | .pauseDequeue | .pauseStatus => v.status = .waiting
  | .pauseCancel => v.intent = .pause
  | .stopCancel => v.intent = .stopSeeding
  | .unpauseClear | .unpauseForget | .unpauseSelect | .unpauseToken => v.Halted
  | .unpauseIntent => v.Halted ∧ v.Fresh
  | .unpauseFiles | .unpauseEnqueue | .unpauseStatus => v.Halted ∧ v.Fresh ∧ v.intent = .none
  | .removeRead d | .removeIntent d | .removedStatus d => v.deleteFiles = d
  | .removeDequeue d => v.status = .waiting ∧ v.deleteFiles = d
  | .removeCancel d => v.intent = .remove ∧ v.deleteFiles = d
  | .removedForget d => v.status = .removed ∧ v.deleteFiles = d
  | .removedFiles d => v.status = .removed ∧ v.deleteFiles = d ∧ ¬listed
  | _ => True

/-- What has become of the promise of the last command that returned. -/
def Promised (v : View) (listed : Prop) : Option Worker → Verdict → Prop
  | none, .paused => v.status.rests = true
  | none, .removed d => ¬listed ∧ (d = true → v.files = false)
  | some w, .paused => if w.runs then v.intent = .pause else v.status.rests = true
  | some w, .removed d =>
    v.deleteFiles = d ∧ if w.runs then v.intent = .remove
      else v.status = .removed ∧ (w.sweptFiles = true → d = true → v.files = false)

/-- The task is in a phase of its life. -/
structure Fits (w : Option Worker) (a : Option Caller) (v : View) (listed : Prop) (queued : Nat) :
    Prop where
  phase : Phase v listed w a queued
  knows : ∀ c ∈ a, c.Knows v listed
  quiet : a ≠ none → v.verdict = none
  promise : ∀ p ∈ v.verdict, Promised v listed w p
  bound : ∀ k ∈ v.cancelled, k ≤ v.token

section Steps

variable {w : Option Worker} {a : Option Caller} {v : View} {listed : Prop} {queued : Nat}

/-! ## Putting a phase together -/

variable {c : Caller}

theorem Fits.acting (hphase : Phase v listed w (some c) queued) (hknows : c.Knows v listed)
    (hquiet : v.verdict = none) (hbound : ∀ k ∈ v.cancelled, k ≤ v.token) :
    Fits w (some c) v listed queued := by
  refine ⟨hphase, fun d hd => ?_, fun _ => hquiet, fun p hp => ?_, hbound⟩
  · obtain rfl := Option.some.inj hd
    exact hknows
  · rw [hquiet] at hp
    cases hp

theorem Fits.idle (hphase : Phase v listed w none queued)
    (hpromise : ∀ p ∈ v.verdict, Promised v listed w p) (hbound : ∀ k ∈ v.cancelled, k ≤ v.token) :
    Fits w none v listed queued :=
  ⟨hphase, nofun, fun h => absurd rfl h, hpromise, hbound⟩

theorem Fits.known (h : Fits w (some c) v listed queued) : c.Knows v listed :=
  h.knows c rfl

theorem Fits.silent (h : Fits w (some c) v listed queued) : v.verdict = none :=
  h.quiet nofun

/-- Nothing has been promised. -/
theorem promise_of_silent (h : v.verdict = none) : ∀ p ∈ v.verdict, Promised v listed w p := by
  intro p hp
  rw [h] at hp
  cases hp

theorem final_not_runs {w : Worker} (h : w.isFinal = true) : w.runs = false := by
  cases w with
  | written | removing | leaving => rfl
  | _ => cases h

theorem cleans_not_runs {w : Worker} (h : w.cleans = true) : w.runs = false := by
  cases w with
  | started | spawned | driving | ended => cases h
  | _ => rfl

variable {v' : View}

/-- A worker at work does not mind another intent, unless it is taken back. -/
theorem Worker.Drives.called {w : Worker} (h : w.Drives v) (htoken : v'.token = v.token)
    (hintent : v'.intent ≠ .none) : w.Drives v' := by
  cases w with
  | driving token ticked => exact ⟨h.1.trans htoken.symm, fun _ => hintent⟩
  | ended result => exact fun _ => hintent
  | _ => trivial

/-- A worker at work reads the token and the intent. -/
theorem Worker.Drives.congr {w : Worker} (h : w.Drives v) (htoken : v'.token = v.token)
    (hintent : v'.intent = v.intent) : w.Drives v' := by
  cases w with
  | driving token ticked => exact ⟨h.1.trans htoken.symm, fun ht => hintent ▸ h.2 ht⟩
  | ended result => exact fun hc => hintent ▸ h hc
  | _ => trivial

/-! ## A command at work -/

theorem pauseStatus_fits (h : Fits w (some .pauseStatus) v listed queued) :
    Fits w none { v with status := .paused, verdict := some .paused } listed queued := by
  have hpromise : ∀ w : Option Worker, (∀ x ∈ w, x.runs = false) →
      Promised { v with status := .paused, verdict := some .paused } listed w .paused := by
    intro w hw
    cases w with
    | none => rfl
    | some x =>
      show if x.runs = true then _ else _
      rw [hw x rfl]
      rfl
  cases h.phase with
  | waiting a queued ha => cases ha
  | running w a hw ha => cases ha
  | resting a ha => cases ha
  | dequeued c hc hstatus =>
    refine .idle (.resting none rfl rfl) (fun p hp => ?_) h.bound
    obtain rfl := Option.some.inj hp
    exact hpromise none nofun
  | final w a hw ha hstatus =>
    refine .idle (.final w none hw rfl (.inl rfl)) (fun p hp => ?_) h.bound
    obtain rfl := Option.some.inj hp
    refine hpromise (some w) fun x hx => ?_
    obtain rfl := Option.some.inj hx
    exact final_not_runs hw

/-- The commands that only ever meet a worker at work. -/
def Caller.meetsWorker : Caller → Bool
  | .pauseIntent | .pauseCancel | .stopIntent | .stopCancel | .removeIntent _ | .removeCancel _ =>
    true
  | _ => false

theorem running_of_meetsWorker (h : Phase v listed w (some c) queued) (hc : c.meetsWorker = true) :
    ∃ x : Worker, w = some x ∧ queued = 0 ∧ x.runs = true ∧
      v.status.works = true ∧
      (v.token ∈ v.cancelled → v.intent ≠ .none) ∧ x.Drives v := by
  cases h with
  | running x a hw ha hstatus hcancel hdrives => exact ⟨x, rfl, rfl, hw, hstatus, hcancel, hdrives⟩
  | waiting a queued ha =>
    cases c with
    | pauseIntent | pauseCancel | stopIntent | stopCancel | removeIntent | removeCancel => cases ha
    | _ => cases hc
  | dequeued c ha =>
    cases c with
    | pauseIntent | pauseCancel | stopIntent | stopCancel | removeIntent | removeCancel => cases ha
    | _ => cases hc
  | resting a ha =>
    cases c with
    | pauseIntent | pauseCancel | stopIntent | stopCancel | removeIntent | removeCancel => cases ha
    | _ => cases hc
  | final x a hw ha =>
    cases c with
    | pauseIntent | pauseCancel | stopIntent | stopCancel | removeIntent | removeCancel => cases ha
    | _ => cases hc
  | enqueued => cases hc

/-- `pause`, `stop_seeding` and `remove_with_files` say what they want of a worker at work. -/
theorem intent_fits (c' : Caller) {intent : Intent} (h : Fits w (some c) v listed queued)
    (hc : c.meetsWorker = true) (hintent : intent ≠ .none) (hc' : c'.whileRunning = true)
    (hknows : c'.Knows { v with intent } listed) :
    Fits w (some c') { v with intent } listed queued := by
  obtain ⟨x, rfl, rfl, hruns, hstatus, hcancel, hdrives⟩ := running_of_meetsWorker h.phase hc
  exact .acting (.running x _ hruns hc' hstatus (fun _ => hintent) (hdrives.called rfl hintent))
    hknows h.silent h.bound

/-- They cancel its token, and their promise stands until the worker has seen it. -/
theorem cancel_fits (verdict : Option Verdict) (h : Fits w (some c) v listed queued)
    (hc : c.meetsWorker = true) (hintent : v.intent ≠ .none)
    (hverdict : ∀ p ∈ verdict, match p with
      | .paused => v.intent = .pause
      | .removed d => v.deleteFiles = d ∧ v.intent = .remove) :
    Fits w none { v with cancelled := v.token :: v.cancelled, verdict } listed queued := by
  obtain ⟨x, rfl, rfl, hruns, hstatus, hcancel, hdrives⟩ := running_of_meetsWorker h.phase hc
  refine .idle (.running x none hruns rfl hstatus (fun _ => hintent) (hdrives.congr rfl rfl))
    (fun p hp => ?_) (fun k hk => ?_)
  · have hp := hverdict p hp
    cases p with
    | paused =>
      show if x.runs = true then _ else _
      rw [if_pos hruns]
      exact hp
    | removed d =>
      refine ⟨hp.1, ?_⟩
      rw [if_pos hruns]
      exact hp.2
  · cases List.mem_cons.mp hk with
    | inl hk => exact Nat.le_of_eq hk
    | inr hk => exact h.bound k hk

/-- The steps of `unpause` before it puts the task into the queue. -/
theorem resting_of_unpause (h : Phase v listed w (some c) queued) (hw : c.whileWaiting = false)
    (hd : c.whileDequeued = false) (hr : c.whileRunning = false) (hf : c.whileFinal = false)
    (he : c ≠ .unpauseStatus) : w = none ∧ queued = 0 ∧ v.status.rests = true := by
  cases h with
  | resting a ha hstatus => exact ⟨rfl, rfl, hstatus⟩
  | waiting a queued ha => exact absurd (hw.symm.trans ha) Bool.false_ne_true
  | dequeued c ha => exact absurd (hd.symm.trans ha) Bool.false_ne_true
  | running x a hx ha => exact absurd (hr.symm.trans ha) Bool.false_ne_true
  | final x a hx ha => exact absurd (hf.symm.trans ha) Bool.false_ne_true
  | enqueued => exact absurd rfl he

/-- A step of `unpause` on a task that rests and keeps its status. -/
theorem unpause_fits (c' : Caller) (h : Fits w (some c) v listed queued)
    (hphase : w = none ∧ queued = 0 ∧ v.status.rests = true) (hstatus : v'.status = v.status)
    (hc' : c'.whileResting = true) (hknows : c'.Knows v' listed)
    (hverdict : v'.verdict = v.verdict) (hbound : ∀ k ∈ v'.cancelled, k ≤ v'.token) :
    Fits w (some c') v' listed queued := by
  obtain ⟨rfl, rfl, hrests⟩ := hphase
  exact .acting (.resting _ hc' (by rw [hstatus]; exact hrests)) hknows (hverdict.trans h.silent) hbound

theorem unpauseStatus_fits (h : Fits w (some .unpauseStatus) v listed queued) :
    Fits w none { v with status := .waiting } listed queued := by
  obtain ⟨-, hfresh, hintent⟩ := h.known
  cases h.phase with
  | enqueued =>
    exact .idle (.waiting none 1 rfl rfl hintent hfresh (Nat.le_refl 1) fun _ => rfl)
      (promise_of_silent h.silent) h.bound
  | waiting a queued ha => cases ha
  | dequeued c ha => cases ha
  | resting a ha => cases ha
  | running x a hx ha => cases ha
  | final x a hx ha => cases ha

variable {d : Bool}

/-- `remove_with_files` reads the status: each phase has its own way on. -/
theorem removeRead_fits (h : Fits w (some (.removeRead d)) v listed queued) :
    Fits w (match v.status with
      | .waiting => some (.removeDequeue d)
      | .active | .seeding => some (.removeIntent d)
      | _ => some (.removedStatus d)) v listed queued := by
  have hfiles : v.deleteFiles = d := h.known
  have hsilent := h.silent
  cases h.phase with
  | waiting a queued ha hstatus hintent hfresh hqueued hlisted =>
    rw [hstatus]
    exact .acting (.waiting _ queued rfl hstatus hintent hfresh hqueued hlisted) ⟨hstatus, hfiles⟩
      hsilent h.bound
  | dequeued c hc => cases hc
  | resting a ha hstatus =>
    have hgo : Fits none (some (.removedStatus d)) v listed 0 :=
      .acting (.resting _ rfl hstatus) hfiles hsilent h.bound
    cases hv : v.status with
    | waiting | active | seeding =>
      rw [hv] at hstatus
      cases hstatus
    | _ => exact hgo
  | running x a hx ha hstatus hcancel hdrives =>
    have hgo : Fits (some x) (some (.removeIntent d)) v listed 0 :=
      .acting (.running x _ hx rfl hstatus hcancel hdrives) hfiles hsilent h.bound
    cases hv : v.status with
    | active | seeding => exact hgo
    | _ =>
      rw [hv] at hstatus
      cases hstatus
  | final x a hx ha hstatus =>
    cases hstatus with
    | inl hrests =>
      have hgo : Fits (some x) (some (.removedStatus d)) v listed 0 :=
        .acting (.final x _ hx rfl (.inl hrests)) hfiles hsilent h.bound
      cases hv : v.status with
      | waiting | active | seeding =>
        rw [hv] at hrests
        cases hrests
      | _ => exact hgo
    | inr hwaits =>
      rw [hwaits.1]
      exact .acting (.final x _ hx rfl (.inr hwaits)) ⟨hwaits.1, hfiles⟩ hsilent h.bound

theorem removedStatus_fits (h : Fits w (some (.removedStatus d)) v listed queued) :
    Fits w (some (.removedForget d)) { v with status := .removed } listed queued := by
  have hfiles : v.deleteFiles = d := h.known
  cases h.phase with
  | dequeued c hc =>
    exact .acting (.resting _ rfl rfl) ⟨rfl, hfiles⟩ h.silent h.bound
  | resting a ha => exact .acting (.resting _ rfl rfl) ⟨rfl, hfiles⟩ h.silent h.bound
  | final x a hx ha => exact .acting (.final x _ hx rfl (.inl rfl)) ⟨rfl, hfiles⟩ h.silent h.bound
  | waiting a queued ha => cases ha
  | running x a hx ha => cases ha

/-- The files of a removed task, deleted by the command or by its worker. -/
theorem files_deleted (h : v.deleteFiles = d) : d = true → (v.files && !v.deleteFiles) = false := by
  rintro rfl
  rw [h, Bool.not_true, Bool.and_false]

theorem removedFiles_fits (h : Fits w (some (.removedFiles d)) v listed queued) :
    Fits w none { v with files := v.files && !v.deleteFiles, verdict := some (.removed d) }
      listed queued := by
  obtain ⟨hstatus, hfiles, hgone⟩ : v.status = .removed ∧ v.deleteFiles = d ∧ ¬listed := h.known
  cases h.phase with
  | resting a ha hrests =>
    refine .idle (.resting none rfl hrests) (fun p hp => ?_) h.bound
    obtain rfl := Option.some.inj hp
    exact ⟨hgone, files_deleted hfiles⟩
  | final x a hx ha hsettled =>
    refine .idle (.final x none hx rfl hsettled) (fun p hp => ?_) h.bound
    obtain rfl := Option.some.inj hp
    refine ⟨hfiles, ?_⟩
    rw [if_neg (by rw [final_not_runs hx]; decide)]
    exact ⟨hstatus, fun _ => files_deleted hfiles⟩
  | waiting a queued ha => cases ha
  | dequeued c hc => cases hc
  | running x a hx ha => cases ha

/-- The steps of a command at work that need the lock of `inner`. -/
def Caller.onQueue : Caller → Bool
  | .pauseDequeue | .removeDequeue _ | .unpauseForget | .unpauseEnqueue | .removedForget _ => true
  | _ => false

variable {t : Task}

/-- **A step of a command at work** on the fields of its task. -/
theorem onTask_fits (h : Fits w (some c) t.view listed queued) (hacts : c.acts = true)
    (hinner : c.onQueue = false) : Fits w (c.onTask t).2 (c.onTask t).1.view listed queued := by
  cases c with
  | pauseStatus => exact pauseStatus_fits h
  | pauseIntent => exact intent_fits .pauseCancel h rfl nofun rfl rfl
  | pauseCancel =>
    have hintent : t.view.intent = .pause := h.known
    refine cancel_fits (some .paused) h rfl (by rw [hintent]; nofun) fun p hp => ?_
    obtain rfl := Option.some.inj hp
    exact hintent
  | unpauseClear =>
    have hphase := resting_of_unpause h.phase rfl rfl rfl rfl nofun
    exact unpause_fits .unpauseForget h hphase rfl rfl h.known rfl h.bound
  | unpauseSelect =>
    obtain ⟨rfl, rfl, hrests⟩ := resting_of_unpause h.phase rfl rfl rfl rfl nofun
    show Fits none (if t.awaitsFiles = true then none else some .unpauseToken) t.view listed 0
    split
    · exact .idle (.resting none rfl hrests) (promise_of_silent h.silent) h.bound
    · exact unpause_fits .unpauseToken h ⟨rfl, rfl, hrests⟩ rfl rfl h.known rfl h.bound
  | unpauseToken =>
    have hphase := resting_of_unpause h.phase rfl rfl rfl rfl nofun
    refine unpause_fits .unpauseIntent h hphase rfl rfl ⟨h.known, fun hk => ?_⟩ rfl
      fun k hk => Nat.le_succ_of_le (h.bound k hk)
    exact absurd (h.bound _ hk) (Nat.not_succ_le_self _)
  | unpauseIntent =>
    have hphase := resting_of_unpause h.phase rfl rfl rfl rfl nofun
    exact unpause_fits .unpauseFiles h hphase rfl rfl ⟨h.known.1, h.known.2, rfl⟩ rfl h.bound
  | unpauseFiles =>
    have hphase := resting_of_unpause h.phase rfl rfl rfl rfl nofun
    exact unpause_fits .unpauseEnqueue h hphase rfl rfl h.known rfl h.bound
  | unpauseStatus => exact unpauseStatus_fits h
  | stopIntent => exact intent_fits .stopCancel h rfl nofun rfl rfl
  | stopCancel =>
    have hintent : t.view.intent = .stopSeeding := h.known
    have hsilent := h.silent
    refine cancel_fits t.verdict h rfl (by rw [hintent]; nofun) fun p hp => ?_
    rw [show t.verdict = none from hsilent] at hp
    cases hp
  | removeRead d => exact removeRead_fits h
  | removeIntent d => exact intent_fits (.removeCancel d) h rfl nofun rfl ⟨rfl, h.known⟩
  | removeCancel d =>
    have hknows : t.view.intent = .remove ∧ t.view.deleteFiles = d := h.known
    refine cancel_fits (some (.removed d)) h rfl (by rw [hknows.1]; nofun) fun p hp => ?_
    obtain rfl := Option.some.inj hp
    exact ⟨hknows.2, hknows.1⟩
  | removedStatus d => exact removedStatus_fits h
  | removedFiles d => exact removedFiles_fits h
  | pauseDequeue | removeDequeue | unpauseForget | unpauseEnqueue | removedForget => cases hinner
  | _ => cases hacts

/-! ## A command at work under the lock -/

/-- `pause` and `remove_with_files` take a waiting task out of the queue. -/
theorem dequeue_fits {c' : Caller} (h : Fits w (some c) v listed queued)
    (hw : c.whileResting = false) (hr : c.whileRunning = false) (hd : c.whileDequeued = false)
    (he : c ≠ .unpauseStatus) (hd' : c'.whileDequeued = true) (hf' : c'.whileFinal = true)
    (hknows : c'.Knows v listed) : Fits w (some c') v listed 0 := by
  cases h.phase with
  | waiting a queued ha hstatus => exact .acting (.dequeued c' hd' hstatus) hknows h.silent h.bound
  | final x a hx ha hstatus => exact .acting (.final x _ hx hf' hstatus) hknows h.silent h.bound
  | dequeued c hc => exact absurd (hd.symm.trans hc) Bool.false_ne_true
  | resting a ha => exact absurd (hw.symm.trans ha) Bool.false_ne_true
  | running x a hx ha => exact absurd (hr.symm.trans ha) Bool.false_ne_true
  | enqueued => exact absurd rfl he

theorem pauseDequeue_fits (h : Fits w (some .pauseDequeue) v listed queued) :
    Fits w (some .pauseStatus) v listed 0 :=
  dequeue_fits h rfl rfl rfl nofun rfl rfl h.known

theorem removeDequeue_fits (h : Fits w (some (.removeDequeue d)) v listed queued) :
    Fits w (some (.removedStatus d)) v listed 0 :=
  dequeue_fits h rfl rfl rfl nofun rfl rfl h.known.2

theorem unpauseForget_fits (h : Fits w (some .unpauseForget) v listed queued) :
    Fits w (some .unpauseSelect) v listed queued :=
  unpause_fits .unpauseSelect h (resting_of_unpause h.phase rfl rfl rfl rfl nofun) rfl rfl h.known rfl h.bound

theorem unpauseEnqueue_fits (h : Fits w (some .unpauseEnqueue) v listed queued) :
    Fits w (some .unpauseStatus) v listed (queued + 1) := by
  obtain ⟨rfl, rfl, -⟩ := resting_of_unpause h.phase rfl rfl rfl rfl nofun
  exact .acting .enqueued h.known h.silent h.bound

theorem removedForget_fits (h : Fits w (some (.removedForget d)) v listed queued) :
    Fits w (some (.removedFiles d)) v False queued := by
  have hknows : Caller.Knows v False (.removedFiles d) := ⟨h.known.1, h.known.2, id⟩
  cases h.phase with
  | resting a ha hrests => exact .acting (.resting _ rfl hrests) hknows h.silent h.bound
  | final x a hx ha hsettled => exact .acting (.final x _ hx rfl hsettled) hknows h.silent h.bound
  | waiting a queued ha => cases ha
  | dequeued c hc => cases hc
  | running x a hx ha => cases ha

/-- A task that is no longer listed, also when others have been evicted with it. -/
theorem Fits.unlist (h : Fits w a v listed queued) {listed' : Prop} (hl : listed' → listed) :
    Fits w a v listed' queued := by
  refine ⟨?_, fun c hc => ?_, h.quiet, fun p hp => ?_, h.bound⟩
  · cases h.phase with
    | waiting a queued ha hstatus hintent hfresh hqueued hlisted =>
      exact .waiting a queued ha hstatus hintent hfresh hqueued fun h => hlisted (hl h)
    | dequeued c hc hstatus => exact .dequeued c hc hstatus
    | resting a ha hstatus => exact .resting a ha hstatus
    | enqueued => exact .enqueued
    | picked hstatus hintent hfresh => exact .picked hstatus hintent hfresh
    | running x a hx ha hstatus hcancel hdrives => exact .running x a hx ha hstatus hcancel hdrives
    | final x a hx ha hstatus => exact .final x a hx ha hstatus
    | cleaning x hx htidies => exact .cleaning x hx htidies
  · have hknows := h.knows c hc
    cases c with
    | removedFiles d => exact ⟨hknows.1, hknows.2.1, fun h => hknows.2.2 (hl h)⟩
    | _ => exact hknows
  · have hpromise := h.promise p hp
    cases w with
    | some x =>
      cases p with
      | paused => exact hpromise
      | removed d => exact hpromise
    | none =>
      cases p with
      | paused => exact hpromise
      | removed d => exact ⟨fun h => hpromise.1 (hl h), hpromise.2⟩

/-! ## A command takes its first decision -/

/-- A worker that a command may meet: not one that `fill_slots` is still starting, nor one in its
cleanup. -/
def Meetable (w : Option Worker) : Prop := ∀ x ∈ w, x ≠ .picked ∧ x.cleans = false

/-- The phases that a command may find a task in. -/
inductive Met (v : View) (listed : Prop) : Option Worker → Nat → Prop
  | waiting (queued : Nat) (hstatus : v.status = .waiting) (hintent : v.intent = .none)
    (hfresh : v.Fresh) (hqueued : queued ≤ 1) (hlisted : listed → queued = 1) :
    Met v listed none queued
  | resting (hstatus : v.status.rests = true) : Met v listed none 0
  | running (w : Worker) (hw : w.runs = true) (hstatus : v.status.works = true)
    (hcancel : v.token ∈ v.cancelled → v.intent ≠ .none) (hdrives : w.Drives v) :
    Met v listed (some w) 0
  | final (w : Worker) (hw : w.isFinal = true) (hstatus : v.Settled) : Met v listed (some w) 0

theorem Phase.met (h : Phase v listed w none queued) (hw : Meetable w) : Met v listed w queued := by
  cases h with
  | waiting a queued ha hstatus hintent hfresh hqueued hlisted =>
    exact .waiting queued hstatus hintent hfresh hqueued hlisted
  | resting a ha hstatus => exact .resting hstatus
  | running x a hx ha hstatus hcancel hdrives => exact .running x hx hstatus hcancel hdrives
  | final x a hx ha hstatus => exact .final x hx hstatus
  | picked => exact absurd rfl (hw _ rfl).1
  | cleaning x hx =>
    rw [(hw x rfl).2] at hx
    cases hx

/-- A task that waits is in the queue, or between its worker's last words and its cleanup. -/
theorem Met.dequeue (h : Met v listed w queued) (hstatus : v.status = .waiting)
    (hw : c.whileWaiting = true) (hf : c.whileFinal = true)
    (hknows : c.Knows { v with verdict := none } listed) (hbound : ∀ k ∈ v.cancelled, k ≤ v.token) :
    Fits w (some c) { v with verdict := none } listed queued := by
  cases h with
  | waiting queued _ hintent hfresh hqueued hlisted =>
    exact .acting (.waiting _ queued hw hstatus hintent hfresh hqueued hlisted) hknows rfl hbound
  | final x hx hsettled => exact .acting (.final x _ hx hf hsettled) hknows rfl hbound
  | resting hrests =>
    rw [hstatus] at hrests
    cases hrests
  | running x hx hworks =>
    rw [hstatus] at hworks
    cases hworks

/-- A task at work has a worker at work. -/
theorem Met.command (h : Met v listed w queued) (hstatus : v.status.works = true)
    (hr : c.whileRunning = true) (hknows : c.Knows { v with verdict := none } listed)
    (hbound : ∀ k ∈ v.cancelled, k ≤ v.token) :
    Fits w (some c) { v with verdict := none } listed queued := by
  cases h with
  | running x hx hworks hcancel hdrives =>
    exact .acting (.running x _ hx hr hworks hcancel (hdrives.congr rfl rfl)) hknows rfl hbound
  | waiting queued hwaits =>
    rw [hwaits] at hstatus
    cases hstatus
  | resting hrests => exact absurd (hrests.symm.trans (Status.not_rests hstatus)) nofun
  | final x hx hsettled =>
    cases hsettled with
    | inl hrests => exact absurd (hrests.symm.trans (Status.not_rests hstatus)) nofun
    | inr hwaits =>
      rw [hwaits.1] at hstatus
      cases hstatus

/-- `unpause` takes up a task that rests and has no worker any more. -/
theorem Met.resume (h : Met v listed none queued) (hstatus : v.Halted) (hr : c.whileResting = true)
    (hknows : c.Knows { v with verdict := none } listed) (hbound : ∀ k ∈ v.cancelled, k ≤ v.token) :
    Fits none (some c) { v with verdict := none } listed queued := by
  cases h with
  | resting hrests => exact .acting (.resting _ hr hrests) hknows rfl hbound
  | waiting queued hwaits =>
    cases hstatus with
    | inl hstatus => exact absurd (hwaits.symm.trans hstatus) nofun
    | inr hstatus => exact absurd (hwaits.symm.trans hstatus) nofun

/-- `remove_with_files` may take up any task. -/
theorem Met.remove (h : Met v listed w queued) (hbound : ∀ k ∈ v.cancelled, k ≤ v.token) :
    Fits w (some (.removeRead d)) { v with deleteFiles := d, verdict := none } listed queued := by
  cases h with
  | waiting queued hstatus hintent hfresh hqueued hlisted =>
    exact .acting (.waiting _ queued rfl hstatus hintent hfresh hqueued hlisted) rfl rfl hbound
  | resting hrests => exact .acting (.resting _ rfl hrests) rfl rfl hbound
  | running x hx hworks hcancel hdrives =>
    exact .acting (.running x _ hx rfl hworks hcancel (hdrives.congr rfl rfl)) rfl rfl hbound
  | final x hx hsettled => exact .acting (.final x _ hx rfl hsettled) rfl rfl hbound

/-- **A command that goes on** finds the task in a phase that it may work in. -/
theorem takesUp_fits (h : Fits w none t.view listed queued) (hw : Meetable w)
    (hu : c = .unpauseRead → w = none) (htakes : c.takesUp t.status = true) :
    ∃ next, (c.onTask t).2 = some next ∧ next.acts = true ∧
      Fits w (some next) (c.onTask t).1.view listed queued := by
  have hmet := h.phase.met hw
  have hbound := h.bound
  cases c with
  | pauseRead =>
    cases hstatus : t.status with
    | waiting =>
      have hnext : Caller.onTask .pauseRead t = ({ t with verdict := none }, some .pauseDequeue) := by
        simp only [Caller.onTask, Task.decide, hstatus, Option.isSome_some, if_true]
      rw [hnext]
      exact ⟨_, rfl, rfl, hmet.dequeue hstatus rfl rfl hstatus hbound⟩
    | active | seeding =>
      have hnext : Caller.onTask .pauseRead t = ({ t with verdict := none }, some .pauseIntent) := by
        simp only [Caller.onTask, Task.decide, hstatus, Option.isSome_some, if_true]
      rw [hnext]
      refine ⟨_, rfl, rfl, hmet.command ?_ rfl trivial hbound⟩
      show t.status.works = true
      rw [hstatus]
      rfl
    | _ =>
      rw [hstatus] at htakes
      cases htakes
  | unpauseRead =>
    obtain rfl := hu rfl
    cases hstatus : t.status with
    | paused =>
      have hnext : Caller.onTask .unpauseRead t = ({ t with verdict := none }, some .unpauseSelect) := by
        simp only [Caller.onTask, Task.decide, hstatus, Option.isSome_some, if_true]
      rw [hnext]
      exact ⟨_, rfl, rfl, hmet.resume (.inl hstatus) rfl (.inl hstatus) hbound⟩
    | error =>
      have hnext : Caller.onTask .unpauseRead t = ({ t with verdict := none }, some .unpauseClear) := by
        simp only [Caller.onTask, Task.decide, hstatus, Option.isSome_some, if_true]
      rw [hnext]
      exact ⟨_, rfl, rfl, hmet.resume (.inr hstatus) rfl (.inr hstatus) hbound⟩
    | _ =>
      rw [hstatus] at htakes
      cases htakes
  | stopRead =>
    have hstatus : t.status = .seeding := of_decide_eq_true htakes
    have hnext : Caller.onTask .stopRead t = ({ t with verdict := none }, some .stopIntent) := by
      simp only [Caller.onTask, Task.decide, hstatus, Option.isSome_some, if_true]
    rw [hnext]
    refine ⟨_, rfl, rfl, hmet.command ?_ rfl trivial hbound⟩
    show t.status.works = true
    rw [hstatus]
    rfl
  | removeFiles d => exact ⟨_, rfl, rfl, hmet.remove hbound⟩
  | _ => cases htakes

/-! ## Workers -/

variable {x : Worker}

/-- The phases between which a command cannot come. -/
theorem Phase.worker (h : Phase v listed (some x) a queued) :
    queued = 0 ∧
      (x.runs = true → a.all Caller.whileRunning = true ∧ v.status.works = true ∧
        (v.token ∈ v.cancelled → v.intent ≠ .none) ∧ x.Drives v) ∧
      (x.isFinal = true → a.all Caller.whileFinal = true ∧ v.Settled) ∧
      (x.cleans = true → a = none ∧ x.Tidies v) := by
  cases h with
  | picked => exact ⟨rfl, nofun, nofun, nofun⟩
  | running x a hx ha hstatus hcancel hdrives =>
    refine ⟨rfl, fun _ => ⟨ha, hstatus, hcancel, hdrives⟩, fun hf => ?_, fun hc => ?_⟩
    · exact absurd (hx.symm.trans (final_not_runs hf)) nofun
    · exact absurd (hx.symm.trans (cleans_not_runs hc)) nofun
  | final x a hx ha hsettled =>
    refine ⟨rfl, fun hr => ?_, fun _ => ⟨ha, hsettled⟩, fun hc => ?_⟩
    · exact absurd (hr.symm.trans (final_not_runs hx)) nofun
    · cases x with
      | written | removing | leaving => cases hc
      | _ => cases hx
  | cleaning x hx htidies =>
    refine ⟨rfl, fun hr => ?_, fun hf => ?_, fun _ => ⟨rfl, htidies⟩⟩
    · exact absurd (hr.symm.trans (cleans_not_runs hx)) nofun
    · cases x with
      | written | removing | leaving => cases hx
      | _ => cases hf

theorem spawned_fits (h : Fits (some .spawned) a t.view listed queued) :
    Fits (some (.driving t.token false)) a { t.view with files := true } listed queued := by
  obtain ⟨rfl, hruns, -, -⟩ := h.phase.worker
  obtain ⟨ha, hstatus, hcancel, -⟩ := hruns rfl
  refine ⟨.running _ a rfl ha hstatus hcancel ⟨rfl, nofun⟩, fun c hc => ?_, h.quiet, fun p hp => ?_,
    h.bound⟩
  · have hknows := h.knows c hc
    cases c with
    | _ => exact hknows
  · have hpromise := h.promise p hp
    cases p with
    | paused => exact hpromise
    | removed d => exact hpromise

/-- **The final status** of a worker, of which no command is in the middle, and that has seen its
cancellation if it is to be removed. -/
theorem ended_fits {result : DriveResult}
    (h : Fits (some (.ended result)) none t.view listed queued)
    (hremove : t.intent = .remove → result.failure? = some .cancelled) :
    Fits (some (.written (t.finalStatus result).2)) none (t.finalStatus result).1.view listed queued := by
  obtain ⟨rfl, hruns, -, -⟩ := h.phase.worker
  obtain ⟨-, -, -, hdrives⟩ := hruns rfl
  have hdrives : result.failure? = some .cancelled → t.intent ≠ .none := hdrives
  have hbound := h.bound
  have hpromise := h.promise
  unfold Task.finalStatus
  cases hfailure : result.failure? with
  | none =>
    refine .idle (.final _ none rfl rfl (.inl rfl)) (fun p hp => ?_) hbound
    cases p with
    | paused => exact rfl
    | removed d =>
      have hintent := hremove (hpromise _ hp).2
      rw [hfailure] at hintent
      cases hintent
  | some failure =>
    cases failure with
    | other errorCode message =>
      refine .idle (.final _ none rfl rfl (.inl rfl)) (fun p hp => ?_) hbound
      cases p with
      | paused => exact rfl
      | removed d =>
        have hintent := hremove (hpromise _ hp).2
        rw [hfailure] at hintent
        cases hintent
    | cancelled =>
      cases hintent : t.intent with
      | none => exact absurd hintent (hdrives hfailure)
      | pause =>
        refine .idle (.final _ none rfl rfl (.inl rfl)) (fun p hp => ?_) hbound
        cases p with
        | paused => exact rfl
        | removed d => exact absurd (hintent.symm.trans (hpromise _ hp).2) nofun
      | remove =>
        refine .idle (.final _ none rfl rfl (.inl rfl)) (fun p hp => ?_) hbound
        cases p with
        | paused => exact rfl
        | removed d => exact ⟨(hpromise _ hp).1, rfl, nofun⟩
      | stopSeeding =>
        refine .idle (.final _ none rfl rfl (.inl rfl)) (fun p hp => ?_) hbound
        cases p with
        | paused => exact rfl
        | removed d => exact absurd (hintent.symm.trans (hpromise _ hp).2) nofun
      | restart =>
        refine .idle (.final _ none rfl rfl (.inr ⟨rfl, rfl⟩)) (fun p hp => ?_) hbound
        cases p with
        | paused => exact absurd (hintent.symm.trans (hpromise _ hp)) nofun
        | removed d => exact absurd (hintent.symm.trans (hpromise _ hp).2) nofun

variable {terminal : Bool}

/-- The worker's look at a final status: the files of a removed task are still to be deleted. -/
theorem written_fits (h : Fits (some (.written terminal)) a v listed queued) :
    Fits (some (if v.status = .removed then .removing terminal else .leaving terminal)) a v listed
      queued := by
  obtain ⟨rfl, -, hfinal, -⟩ := h.phase.worker
  obtain ⟨ha, hsettled⟩ := hfinal rfl
  by_cases hstatus : v.status = .removed
  · rw [if_pos hstatus]
    refine ⟨.final _ a rfl ha hsettled, h.knows, h.quiet, fun p hp => ?_, h.bound⟩
    have hpromise := h.promise p hp
    cases p with
    | paused => exact hpromise
    | removed d => exact ⟨hpromise.1, hpromise.2.1, nofun⟩
  · rw [if_neg hstatus]
    refine ⟨.final _ a rfl ha hsettled, h.knows, h.quiet, fun p hp => ?_, h.bound⟩
    have hpromise := h.promise p hp
    cases p with
    | paused => exact hpromise
    | removed d => exact absurd hpromise.2.1 hstatus

theorem removing_fits (h : Fits (some (.removing terminal)) a v listed queued) :
    Fits (some (.leaving terminal)) a { v with files := v.files && !v.deleteFiles } listed queued := by
  obtain ⟨rfl, -, hfinal, -⟩ := h.phase.worker
  obtain ⟨ha, hsettled⟩ := hfinal rfl
  refine ⟨.final _ a rfl ha hsettled, fun c hc => ?_, h.quiet, fun p hp => ?_, h.bound⟩
  · have hknows := h.knows c hc
    cases c with
    | _ => exact hknows
  · have hpromise := h.promise p hp
    cases p with
    | paused => exact hpromise
    | removed d => exact ⟨hpromise.1, hpromise.2.1, fun _ => files_deleted hpromise.1⟩

variable {x' : Worker}

/-- The promise of a worker that goes on in its cleanup with the task as it is. -/
theorem promise_of_tidying {p : Verdict} (h : Promised v listed (some x) p) (hx : x.runs = false)
    (hswept : x.sweptFiles = true) (hx' : x'.runs = false) (hstatus : v'.status = v.status)
    (hdelete : v'.deleteFiles = v.deleteFiles) (hfiles : v'.files = v.files) :
    Promised v' listed (some x') p := by
  cases p with
  | paused =>
    have hrests : if x.runs = true then _ else v.status.rests = true := h
    rw [if_neg (by rw [hx]; decide)] at hrests
    show if x'.runs = true then _ else v'.status.rests = true
    rw [if_neg (by rw [hx']; decide), hstatus]
    exact hrests
  | removed d =>
    obtain ⟨hd, hrest⟩ := h
    rw [if_neg (by rw [hx]; decide)] at hrest
    refine ⟨hdelete.trans hd, ?_⟩
    rw [if_neg (by rw [hx']; decide), hstatus, hfiles]
    exact ⟨hrest.1, fun _ => hrest.2 hswept⟩

theorem leaving_fits (h : Fits (some (.leaving terminal)) none v listed queued) :
    Fits (some (.cleaning terminal)) none v listed queued := by
  obtain ⟨rfl, -, hfinal, -⟩ := h.phase.worker
  obtain ⟨-, hsettled⟩ := hfinal rfl
  exact .idle (.cleaning _ rfl hsettled)
    (fun p hp => promise_of_tidying (h.promise p hp) rfl rfl rfl rfl rfl rfl) h.bound

/-- A step of the cleanup that leaves the task alone. -/
theorem tidy_fits (h : Fits (some x) a v listed queued) (hx : x.cleans = true)
    (hx' : x'.cleans = true) (htidies : x'.Tidies v) : Fits (some x') a v listed queued := by
  obtain ⟨rfl, -, -, hclean⟩ := h.phase.worker
  obtain ⟨rfl, -⟩ := hclean hx
  have hswept : x.sweptFiles = true := by
    cases x with
    | leaving => rfl
    | _ => exact hx
  exact .idle (.cleaning x' hx' htidies) (fun p hp => promise_of_tidying (h.promise p hp)
    (cleans_not_runs hx) hswept (cleans_not_runs hx') rfl rfl rfl) h.bound

theorem cleaning_fits (h : Fits (some (.cleaning terminal)) a v listed queued) :
    Fits (some (if v.status = .removed then .dropping else .checkingStatus terminal)) a v listed
      queued := by
  have hsettled : v.Settled := (h.phase.worker.2.2.2 rfl).2
  by_cases hstatus : v.status = .removed
  · rw [if_pos hstatus]
    exact tidy_fits h rfl rfl hstatus
  · rw [if_neg hstatus]
    refine tidy_fits h rfl rfl ?_
    cases hsettled with
    | inl hrests => exact .inl ⟨hrests, hstatus⟩
    | inr hwaits => exact .inr hwaits

theorem checkingStatus_fits (h : Fits (some (.checkingStatus terminal)) a v listed queued) :
    Fits (some (if v.status = .waiting then .checkingIntent else .stopping terminal)) a v listed
      queued := by
  have htidies : v.status.rests = true ∧ v.status ≠ .removed ∨
      v.status = .waiting ∧ v.intent = .restart := (h.phase.worker.2.2.2 rfl).2
  by_cases hstatus : v.status = .waiting
  · rw [if_pos hstatus]
    refine tidy_fits h rfl rfl ?_
    cases htidies with
    | inl hrests =>
      rw [hstatus] at hrests
      exact absurd hrests.1 nofun
    | inr hwaits => exact hwaits
  · rw [if_neg hstatus]
    refine tidy_fits h rfl rfl ?_
    cases htidies with
    | inl hrests => exact hrests
    | inr hwaits => exact absurd hwaits.1 hstatus

theorem checkingIntent_fits (h : Fits (some .checkingIntent) a v listed queued) :
    Fits (some (if v.intent = .restart then .restartIntent else .pausing)) a v listed queued := by
  have htidies : v.status = .waiting ∧ v.intent = .restart := (h.phase.worker.2.2.2 rfl).2
  rw [if_pos htidies.2]
  exact tidy_fits h rfl rfl htidies

/-- A restarted task goes on without an intent and with another token. -/
theorem restartIntent_fits (h : Fits (some .restartIntent) a v listed queued) :
    Fits (some .restartToken) a { v with intent := .none } listed queued := by
  obtain ⟨rfl, -, -, hclean⟩ := h.phase.worker
  obtain ⟨rfl, htidies⟩ := hclean rfl
  exact .idle (.cleaning _ rfl ⟨htidies.1, rfl⟩)
    (fun p hp => promise_of_tidying (h.promise p hp) rfl rfl rfl rfl rfl rfl) h.bound

theorem restartToken_fits (h : Fits (some .restartToken) a v listed queued) :
    Fits (some .restartEnqueue) a { v with token := v.token + 1 } listed queued := by
  obtain ⟨rfl, -, -, hclean⟩ := h.phase.worker
  obtain ⟨rfl, htidies⟩ := hclean rfl
  refine .idle (.cleaning _ rfl ⟨htidies.1, htidies.2, fun hk => ?_⟩)
    (fun p hp => promise_of_tidying (h.promise p hp) rfl rfl rfl rfl rfl rfl)
    fun k hk => Nat.le_succ_of_le (h.bound k hk)
  exact absurd (h.bound _ hk) (Nat.not_succ_le_self _)

/-- **A step of a worker** on the fields of its task. -/
theorem workerOnTask_fits {t' : Task} (h : Fits (some x) a t.view listed queued)
    (hstep : x.onTask t = some (t', x'))
    (hended : ∀ result, x = .ended result →
      a = none ∧ (t.intent = .remove → result.failure? = some .cancelled)) :
    Fits (some x') a t'.view listed queued := by
  cases x with
  | spawned =>
    obtain ⟨rfl, rfl⟩ := Prod.mk.inj (Option.some.inj hstep)
    exact spawned_fits h
  | ended result =>
    obtain ⟨rfl, hremove⟩ := hended result rfl
    obtain ⟨rfl, rfl⟩ := Prod.mk.inj (Option.some.inj hstep)
    exact ended_fits h hremove
  | written terminal =>
    obtain ⟨rfl, rfl⟩ := Prod.mk.inj (Option.some.inj hstep)
    exact written_fits h
  | removing terminal =>
    obtain ⟨rfl, rfl⟩ := Prod.mk.inj (Option.some.inj hstep)
    exact removing_fits h
  | cleaning terminal =>
    obtain ⟨rfl, rfl⟩ := Prod.mk.inj (Option.some.inj hstep)
    exact cleaning_fits h
  | checkingStatus terminal =>
    obtain ⟨rfl, rfl⟩ := Prod.mk.inj (Option.some.inj hstep)
    exact checkingStatus_fits h
  | checkingIntent =>
    obtain ⟨rfl, rfl⟩ := Prod.mk.inj (Option.some.inj hstep)
    exact checkingIntent_fits h
  | restartIntent =>
    obtain ⟨rfl, rfl⟩ := Prod.mk.inj (Option.some.inj hstep)
    exact restartIntent_fits h
  | restartToken =>
    obtain ⟨rfl, rfl⟩ := Prod.mk.inj (Option.some.inj hstep)
    exact restartToken_fits h
  | _ => cases hstep

/-! ## The end of a worker -/

/-- What a worker has promised in its cleanup, its task keeps. -/
theorem promise_of_gone {listed' : Prop} {p : Verdict} (h : Promised v listed (some x) p)
    (hx : x.cleans = true) (hgone : v.status = .removed → ¬listed') :
    Promised v listed' none p := by
  have hruns := cleans_not_runs hx
  have hswept : x.sweptFiles = true := by
    cases x with
    | leaving => rfl
    | _ => exact hx
  cases p with
  | paused =>
    have hrests : if x.runs = true then _ else v.status.rests = true := h
    rw [if_neg (by rw [hruns]; decide)] at hrests
    exact hrests
  | removed d =>
    have hrest := h.2
    rw [if_neg (by rw [hruns]; decide)] at hrest
    exact ⟨hgone hrest.1, hrest.2 hswept⟩

theorem dropping_fits (h : Fits (some .dropping) a v listed queued) : Fits none a v False queued := by
  obtain ⟨rfl, -, -, hclean⟩ := h.phase.worker
  obtain ⟨rfl, htidies⟩ := hclean rfl
  have hstatus : v.status = .removed := htidies
  exact .idle (.resting none rfl (by rw [hstatus]; rfl))
    (fun p hp => promise_of_gone (h.promise p hp) rfl fun _ => id) h.bound

theorem stopping_fits (h : Fits (some (.stopping terminal)) a v listed queued) {listed' : Prop} :
    Fits none a v listed' queued := by
  obtain ⟨rfl, -, -, hclean⟩ := h.phase.worker
  obtain ⟨rfl, hrests, hstatus⟩ := hclean rfl
  exact .idle (.resting none rfl hrests)
    (fun p hp => promise_of_gone (h.promise p hp) rfl fun hs => absurd hs hstatus) h.bound

theorem restartEnqueue_fits (h : Fits (some .restartEnqueue) a v listed queued) :
    Fits none a v listed (queued + 1) := by
  obtain ⟨rfl, -, -, hclean⟩ := h.phase.worker
  obtain ⟨rfl, hstatus, hintent, hfresh⟩ := hclean rfl
  refine .idle (.waiting none 1 rfl hstatus hintent hfresh (Nat.le_refl 1) fun _ => rfl)
    (fun p hp => promise_of_gone (h.promise p hp) rfl fun hs => ?_) h.bound
  exact absurd (hstatus.symm.trans hs) nofun

/-! ## The scheduler -/

/-- A task at the head of the queue that no command is at work on and that waits has no worker. -/
theorem take_fits (h : Fits w none v listed (queued + 1)) (hl : listed) (hstatus : v.status = .waiting) :
    w = none ∧ queued = 0 ∧ Fits (some .picked) none v listed 0 := by
  have hpromise := h.promise
  have hbound := h.bound
  cases h.phase with
  | waiting a _ ha _ hintent hfresh hqueued hlisted =>
    refine ⟨rfl, by omega, .idle (.picked hstatus hintent hfresh) (fun p hp => ?_) hbound⟩
    cases p with
    | paused =>
      have hrests : v.status.rests = true := hpromise _ hp
      rw [hstatus] at hrests
      cases hrests
    | removed d => exact absurd hl (hpromise _ hp).1

/-- An entry of the queue that `fill_slots` skips, of a task that is gone or does not wait. -/
theorem skip_fits (h : Fits w none v listed (queued + 1)) (hstale : ¬listed ∨ v.status ≠ .waiting) :
    Fits w none v listed queued := by
  have hpromise := h.promise
  have hbound := h.bound
  cases h.phase with
  | waiting a _ ha hstatus hintent hfresh hqueued hlisted =>
    cases hstale with
    | inl hgone =>
      exact .idle (.waiting none queued rfl hstatus hintent hfresh (by omega) fun hl => absurd hl hgone)
        hpromise hbound
    | inr hne => exact absurd hstatus hne

theorem activate_fits (h : Fits (some .picked) a v listed queued) :
    Fits (some .started) a { v with status := .active } listed queued := by
  have hpromise := h.promise
  have hbound := h.bound
  cases h.phase with
  | picked hstatus hintent hfresh =>
    refine .idle (.running .started none rfl rfl rfl (fun hk => absurd hk hfresh) trivial)
      (fun p hp => ?_) hbound
    cases p with
    | paused =>
      have hrests : v.status.rests = true := hpromise _ hp
      rw [hstatus] at hrests
      cases hrests
    | removed d => exact absurd (hstatus.symm.trans (hpromise _ hp).2.1) nofun
  | running w a hw => cases hw
  | final w a hw => cases hw
  | cleaning w hw => cases hw

/-- Another worker at work, which knows as much. -/
theorem Fits.working (h : Fits (some x) a v listed queued) (hx : x.runs = true)
    (hx' : x'.runs = true) (hdrives : x'.Drives v) : Fits (some x') a v listed queued := by
  obtain ⟨rfl, hruns, -, -⟩ := h.phase.worker
  obtain ⟨ha, hstatus, hcancel, -⟩ := hruns hx
  refine ⟨.running x' a hx' ha hstatus hcancel hdrives, h.knows, h.quiet, fun p hp => ?_, h.bound⟩
  have hpromise := h.promise p hp
  cases p with
  | paused =>
    have hintent : if x.runs = true then v.intent = .pause else _ := hpromise
    rw [if_pos hx] at hintent
    show if x'.runs = true then v.intent = .pause else _
    rw [if_pos hx']
    exact hintent
  | removed d =>
    obtain ⟨hd, hintent⟩ := hpromise
    rw [if_pos hx] at hintent
    refine ⟨hd, ?_⟩
    rw [if_pos hx']
    exact hintent

theorem spawn_fits (h : Fits (some x) a v listed queued) :
    Fits (some (if x = .started then .spawned else x)) a v listed queued := by
  by_cases hx : x = .started
  · rw [if_pos hx]
    subst hx
    exact h.working rfl rfl trivial
  · rw [if_neg hx]
    exact h

/-! ## The drive -/

/-- A drive that tells a cancellation has been cancelled, and so an intent has been set. -/
theorem driveEnds_fits {token : Nat} {ticked : Bool} {result : DriveResult}
    (h : Fits (some (.driving token ticked)) a t.view listed queued)
    (hpossible : result.possible t token = true)
    (htext : ∀ message, result = .btFailed message → containsText message cancelText = true →
      t.token ∈ t.cancelled) : Fits (some (.ended result)) a t.view listed queued := by
  obtain ⟨-, hruns, -, -⟩ := h.phase.worker
  obtain ⟨-, -, hcancel, hdrives⟩ := hruns rfl
  have htoken : token = t.token := hdrives.1
  refine h.working rfl rfl fun hfailure => hcancel ?_
  show t.token ∈ t.cancelled
  cases result with
  | ok => cases hfailure
  | failed failure =>
    cases failure with
    | cancelled =>
      have hmem := (Bool.and_eq_true_iff.mp hpossible).2
      rw [htoken] at hmem
      exact of_decide_eq_true hmem
    | other => cases hfailure
  | btFailed message =>
    by_cases hmessage : containsText message cancelText = true
    · exact htext message rfl hmessage
    · rw [DriveResult.failure?, if_neg hmessage] at hfailure
      cases hfailure

/-- The timer of a BT task makes it a seeding one, or wants it paused or started again when no command
wants anything of it. -/
theorem tick_fits {t' : Task} {token : Nat} {ticked : Bool} {tick : Tick}
    (h : Fits (some (.driving token ticked)) a t.view listed queued)
    (hw : t.workers = [.driving token ticked]) (hstep : t.tick 0 token ticked tick = some t') :
    ∃ ticked', t'.workers = [.driving token ticked'] ∧
      Fits (some (.driving token ticked')) a t'.view listed queued := by
  have hphase := h.phase
  obtain ⟨rfl, hruns, -, -⟩ := hphase.worker
  obtain ⟨ha, hstatus, hcancel, htoken, hticked⟩ := hruns rfl
  have hknows := h.knows
  have hpromise := h.promise
  cases tick with
  | seeding =>
    obtain ⟨-, ⟨⟩⟩ := Option.ite_none_right_eq_some.mp hstep
    refine ⟨ticked, hw, .running _ a rfl ha rfl hcancel ⟨htoken, hticked⟩, fun c hc => ?_, h.quiet,
      fun p hp => ?_, h.bound⟩
    · have hknows := hknows c hc
      rw [Option.mem_def.mp hc] at ha
      cases c with
      | pauseCancel | stopCancel | removeCancel | removeRead | removeIntent => exact hknows
      | pauseIntent | stopIntent => trivial
      | _ => cases ha
    · have hpromise := hpromise p hp
      cases p with
      | paused => exact hpromise
      | removed d => exact hpromise
  | selection restart =>
    obtain ⟨⟨-, -, hnone⟩, ⟨⟩⟩ := Option.ite_none_right_eq_some.mp hstep
    have hnone : t.view.intent = .none := hnone
    have hset : (if restart = true then Intent.restart else Intent.pause) ≠ .none := by
      split
      · nofun
      · nofun
    refine ⟨true, by rw [hw, List.set_cons_zero], .running _ a rfl ha hstatus (fun _ => hset)
      ⟨htoken, fun _ => hset⟩, fun c hc => ?_, h.quiet, fun p hp => ?_, h.bound⟩
    · have hknows := hknows c hc
      rw [Option.mem_def.mp hc] at ha
      cases c with
      | pauseCancel | stopCancel => exact absurd (hnone.symm.trans hknows) nofun
      | removeCancel => exact absurd (hnone.symm.trans hknows.1) nofun
      | removeRead | removeIntent => exact hknows
      | pauseIntent | stopIntent => trivial
      | _ => cases ha
    · have hpromise := hpromise p hp
      cases p with
      | paused => exact absurd (hnone.symm.trans hpromise) nofun
      | removed d => exact absurd (hnone.symm.trans hpromise.2) nofun
  | cancel =>
    obtain ⟨hset, ⟨⟩⟩ := Option.ite_none_right_eq_some.mp hstep
    have hset := hticked hset
    refine ⟨false, by rw [hw, List.set_cons_zero], .running _ a rfl ha hstatus (fun _ => hset)
      ⟨htoken, nofun⟩, fun c hc => ?_, h.quiet, fun p hp => ?_, fun k hk => ?_⟩
    · have hknows := hknows c hc
      rw [Option.mem_def.mp hc] at ha
      cases c with
      | pauseCancel | stopCancel | removeCancel | removeRead | removeIntent => exact hknows
      | pauseIntent | stopIntent => trivial
      | _ => cases ha
    · have hpromise := hpromise p hp
      cases p with
      | paused => exact hpromise
      | removed d => exact hpromise
    · cases List.mem_cons.mp hk with
      | inl hk => exact Nat.le_of_eq (hk.trans htoken)
      | inr hk => exact h.bound k hk

end Steps

end XferRust.Engine
