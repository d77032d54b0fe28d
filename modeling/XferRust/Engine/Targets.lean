import XferRust.Engine.Steps

/-! # Target paths

`inner.claims` of `manager.rs` holds the paths that tasks write to.  A path is claimed when it is
resolved and given back when its task ends, is removed or is reset, but a failed task keeps the path
it has given back, and neither a rerun of it nor a restart claims it again.

The steps of this module are whole operations, and the state between them is what it speaks about.
What is on disk, and what is known of the remote resource, comes with the step that reads it.
-/
namespace XferRust.Engine

/-! ## Paths -/

/-- An absolute path, by its components. -/
abbrev Path := List (List Char)

/-- `Path::join`. -/
def joinPath (dir : Path) (name : List Char) : Path :=
  let components := (name.splitOn '/').filter fun c => c ≠ [] ∧ c ≠ ['.']
  if name.head? = some '/' then components else dir ++ components

/-- `rsplit_once`. -/
def rsplitOnce (c : Char) : List Char → Option (List Char × List Char)
  | [] => none
  | x :: xs =>
    match rsplitOnce c xs with
    | some (before, after) => some (x :: before, after)
    | none => if x = c then some ([], xs) else none

/-- `rename_with_counter`. -/
def renameWithCounter (name : List Char) (n : Nat) : List Char :=
  match rsplitOnce '.' name with
  | some (stem, ext) =>
    if stem ≠ [] then stem ++ ['.'] ++ Nat.toDigits 10 n ++ ['.'] ++ ext
    else name ++ ['.'] ++ Nat.toDigits 10 n
  | none => name ++ ['.'] ++ Nat.toDigits 10 n

/-- How a kind of task names its file, and when it goes on with one that is there. -/
structure Resolver where
  baseName : Option (List Char) → List Char
  canResume : Nat → Path → Bool

/-- What the probe of a resource tells. -/
structure Probe where
  filename : Option (List Char)
  acceptsRanges : Bool
  totalLen : Option Nat

/-- `resolve_path`. -/
def resolvePath (continueEnabled : Bool) (probe : Probe) : Resolver where
  baseName out := (out.or probe.filename).getD ['d', 'o', 'w', 'n', 'l', 'o', 'a', 'd']
  canResume existing _ :=
    continueEnabled && probe.acceptsRanges && 0 < existing && probe.totalLen.all (existing < ·)

/-- The path that `claim_path` tries in its round `n`. -/
def candidate (dir : Path) (baseName : List Char) (n : Nat) : Path :=
  joinPath dir (if n = 0 then baseName else renameWithCounter baseName n)

/-- The loop of `claim_path` from its round `n` on, for some rounds: the first candidate that neither
another task nor a file on disk is in the way of. -/
def claimPath (dir : Path) (baseName : List Char) (canResume : Nat → Path → Bool) (disk : Path → Nat)
    (claims : List Path) : Nat → Nat → Option Path
  | _, 0 => none
  | n, rounds + 1 =>
    let path := candidate dir baseName n
    let existing := disk path
    let diskConflict := !canResume existing path && 0 < existing
    if path ∉ claims ∧ ¬diskConflict then some path
    else claimPath dir baseName canResume disk claims (n + 1) rounds

theorem claimPath_not_claimed {dir : Path} {baseName : List Char} {canResume : Nat → Path → Bool}
    {disk : Path → Nat} {claims : List Path} {n rounds : Nat} {p : Path}
    (h : claimPath dir baseName canResume disk claims n rounds = some p) : p ∉ claims := by
  induction rounds generalizing n with
  | zero => cases h
  | succ rounds ih =>
    rw [claimPath] at h
    split at h
    · rename_i hfree
      obtain rfl := Option.some.inj h
      exact hfree.1
    · exact ih h

/-! ## Operations -/

/-- A task, as far as its target path goes. -/
structure Target where
  status : Status
  dir : Path
  out : Option (List Char)
  path : Option Path

/-- The worker of a task in this status writes to its path. -/
def Target.writes (t : Target) : Bool := t.status = .active || t.status = .seeding

/-- A task as the session file has it. -/
def Target.saved (t : Target) : Target :=
  { t with status := if t.writes then .waiting else t.status }

/-- A task as it comes out of the session file. -/
def Target.restored (t : Target) : Target :=
  { t with status := if t.status.isTerminal then t.status else .paused }

structure Session (G : Type) where
  tasks : List G
  task : G → Target

structure Targets (G : Type) where
  tasks : List G
  task : G → Target
  claims : List Path
  stoppedOrder : List G
  session : Option (Session G)

/-- How a worker ends, by the status it leaves. -/
inductive Ending
  | complete | error | paused | restarted | removed

/-- The final status. -/
def Ending.status : Ending → Status
  | .complete => .complete
  | .error => .error
  | .paused => .paused
  | .restarted => .waiting
  | .removed => .removed

inductive Targets.Event (G : Type)
  | add (gid : G) (dir : Path) (out : Option (List Char))
  | start (gid : G)
  | seed (gid : G)
  | resolve (gid : G) (resolver : Resolver) (disk : Path → Nat) (rounds : Nat)
  /-- `drive_bt_download` knows the name of its torrent. -/
  | nameBt (gid : G) (name : List Char)
  | resetPath (gid : G)
  | ends (gid : G) (ending : Ending)
  | pause (gid : G)
  | unpause (gid : G)
  | remove (gid : G)
  | removeResult (gid : G)
  | purge
  | save
  | restart

/-- `claims.remove`, of the path that a task has. -/
def dropClaim (claims : List Path) : Option Path → List Path
  | none => claims
  | some p => claims.filter (· ≠ p)

namespace Targets

variable {G : Type} [DecidableEq G]

/-- A manager that has never run; the function is that of tasks without a gid. -/
def initial : Targets G where
  tasks := []
  task := fun _ => ⟨.waiting, [], none, none⟩
  claims := []
  stoppedOrder := []
  session := none

/-- Another value of one task. -/
def modify (s : Targets G) (gid : G) (f : Target → Target) : Targets G :=
  { s with task := fun g => if g = gid then f (s.task g) else s.task g }

/-- A worker is at work for the task. -/
def Works (s : Targets G) (gid : G) : Prop := gid ∈ s.tasks ∧ (s.task gid).writes = true

instance (s : Targets G) (gid : G) : Decidable (s.Works gid) :=
  inferInstanceAs (Decidable (_ ∧ _))

/-- The task, and its entry among the stopped ones, are gone. -/
def forget (s : Targets G) (gid : G) : Targets G :=
  { s with
    tasks := s.tasks.filter (· ≠ gid)
    stoppedOrder := s.stoppedOrder.filter (· ≠ gid) }

/-- `claims.remove` of the path of a task. -/
def unclaim (s : Targets G) (gid : G) : Targets G :=
  { s with claims := dropClaim s.claims (s.task gid).path }

/-- `stopped_order.push`; the oldest results are dropped. -/
def stop (s : Targets G) (gid : G) : Targets G :=
  let stopped := s.stoppedOrder ++ [gid]
  let old := stopped.take (stopped.length - maxResults)
  { s with
    stoppedOrder := stopped.drop (stopped.length - maxResults)
    tasks := s.tasks.filter (· ∉ old) }

/-- The end of `run_task`. -/
def endWorker (s : Targets G) (gid : G) (ending : Ending) : Targets G :=
  let s := s.modify gid fun t => { t with status := ending.status }
  match ending with
  | .removed => (s.forget gid).unclaim gid
  | .restarted | .paused => s
  | .complete | .error => (s.unclaim gid).stop gid

/-- `restore_tasks` of a new manager. -/
def restore (session : Session G) : Targets G :=
  let task := fun g => (session.task g).restored
  let stopped := session.tasks.filter fun g => (task g).status.isTerminal
  let old := stopped.take (stopped.length - maxResults)
  { tasks := session.tasks.filter (· ∉ old)
    task := task
    claims := []
    stoppedOrder := stopped.drop (stopped.length - maxResults)
    session := some session }

def step (s : Targets G) : Event G → Option (Targets G)
  | .add gid dir out =>
    if gid ∉ s.tasks ∧ gid ∉ s.stoppedOrder then
      some ({ s with tasks := s.tasks ++ [gid] }.modify gid fun _ => ⟨.waiting, dir, out, none⟩)
    else none
  | .start gid =>
    if gid ∈ s.tasks ∧ (s.task gid).status = .waiting then
      some (s.modify gid fun t => { t with status := .active })
    else none
  | .seed gid =>
    if s.Works gid then some (s.modify gid fun t => { t with status := .seeding }) else none
  | .resolve gid resolver disk rounds =>
    if s.Works gid then
      let t := s.task gid
      match t.path with
      | some _ => some s
      | none =>
        (claimPath t.dir (resolver.baseName t.out) resolver.canResume disk s.claims 0 rounds).map
          fun p => { s with claims := p :: s.claims }.modify gid fun t => { t with path := some p }
    else none
  | .nameBt gid name =>
    if s.Works gid then
      some (s.modify gid fun t => { t with path := t.path.or (some (joinPath t.dir name)) })
    else none
  | .resetPath gid =>
    if s.Works gid then some ((s.unclaim gid).modify gid fun t => { t with path := none }) else none
  | .ends gid ending => if s.Works gid then some (s.endWorker gid ending) else none
  | .pause gid =>
    if gid ∈ s.tasks ∧ (s.task gid).status = .waiting then
      some (s.modify gid fun t => { t with status := .paused })
    else none
  | .unpause gid =>
    if gid ∈ s.tasks ∧ (s.task gid).status = .paused then
      some (s.modify gid fun t => { t with status := .waiting })
    else if gid ∈ s.tasks ∧ (s.task gid).status = .error then
      some ({ s with stoppedOrder := s.stoppedOrder.filter (· ≠ gid) }.modify gid
        fun t => { t with status := .waiting })
    else none
  | .remove gid =>
    if gid ∈ s.tasks ∧ (s.task gid).writes = false then
      some (((s.modify gid fun t => { t with status := .removed }).forget gid).unclaim gid)
    else none
  | .removeResult gid =>
    if gid ∈ s.tasks ∧ (s.task gid).status.isTerminal = true then some (s.forget gid) else none
  | .purge =>
    some { s with
      tasks := s.tasks.filter fun g => !(s.task g).status.isTerminal
      stoppedOrder := [] }
  | .save => some { s with session := some ⟨s.tasks, fun g => (s.task g).saved⟩ }
  | .restart =>
    match s.session with
    | none => some initial
    | some session => some (restore session)

/-! ## Exclusive paths -/

/-- The task is waiting, active or paused, and this is its path. -/
def Holds (s : Targets G) (gid : G) (p : Path) : Prop :=
  gid ∈ s.tasks ∧ (s.task gid).status.isTerminal = false ∧ (s.task gid).path = some p

/-- No two tasks hold one path, and the claims are the paths that tasks hold. -/
structure Exclusive (s : Targets G) : Prop where
  apart : ∀ g h p, s.Holds g p → s.Holds h p → g = h
  claimed : ∀ p, p ∈ s.claims ↔ ∃ g, s.Holds g p

/-- The step is none of those that break the rule: the rerun of a failed task that still has a path, a
BT task that gets its path, the removal of an ended task whose path another task has claimed since, and
a restart with a task that has a path and has not ended. -/
def Reclaimed (s : Targets G) : Event G → Prop
  | .unpause gid => (s.task gid).status = .error → (s.task gid).path = none
  | .nameBt gid _ => (s.task gid).path ≠ none
  | .remove gid => (s.task gid).status.isTerminal = true → ∀ p ∈ (s.task gid).path, p ∉ s.claims
  | .restart =>
    ∀ session ∈ s.session, ∀ g ∈ session.tasks, (session.task g).status.isTerminal = false →
      (session.task g).path = none
  | _ => True

instance (s : Targets G) : DecidablePred s.Reclaimed
  | .unpause gid =>
    inferInstanceAs (Decidable ((s.task gid).status = .error → (s.task gid).path = none))
  | .nameBt gid _ => inferInstanceAs (Decidable ((s.task gid).path ≠ none))
  | .remove gid =>
    inferInstanceAs (Decidable ((s.task gid).status.isTerminal = true →
      ∀ p ∈ (s.task gid).path, p ∉ s.claims))
  | .restart =>
    inferInstanceAs (Decidable (∀ session ∈ s.session, ∀ g ∈ session.tasks,
      (session.task g).status.isTerminal = false → (session.task g).path = none))
  | .add _ _ _ | .start _ | .seed _ | .resolve _ _ _ _ | .resetPath _ | .ends _ _ | .pause _
  | .removeResult _ | .purge | .save => isTrue trivial

/-- The rule, with what keeps the eviction of old results away from the tasks that have not ended. -/
structure TargetsInv (s : Targets G) : Prop where
  rule : s.Exclusive
  stopped : ∀ g ∈ s.stoppedOrder, g ∈ s.tasks → (s.task g).status.isTerminal = true

omit [DecidableEq G] in
theorem initial_targetsInv : (initial : Targets G).TargetsInv where
  rule := ⟨fun _ _ _ h => absurd h.1 nofun, fun _ => ⟨nofun, fun ⟨_, h⟩ => absurd h.1 nofun⟩⟩
  stopped := nofun

theorem writes_live {t : Target} (h : t.writes = true) : t.status.isTerminal = false := by
  cases hstatus : t.status with
  | complete | error | removed =>
    rw [Target.writes, hstatus] at h
    cases h
  | _ => rfl

variable {s : Targets G} {g : G} {p : Path}

omit [DecidableEq G] in
/-- Two workers never write the same file. -/
theorem Exclusive.works (h : s.Exclusive) {g' : G} (hg : s.Works g) (hg' : s.Works g')
    (hp : (s.task g).path = some p) (hp' : (s.task g').path = some p) : g = g' :=
  h.apart g g' p ⟨hg.1, writes_live hg.2, hp⟩ ⟨hg'.1, writes_live hg'.2, hp'⟩

/-! ## Changes of the holders -/

theorem modify_task_self (s : Targets G) (gid : G) (f : Target → Target) :
    (s.modify gid f).task gid = f (s.task gid) := if_pos rfl

variable {gid : G} {f : Target → Target}

theorem modify_task_ne (h : g ≠ gid) : (s.modify gid f).task g = s.task g := if_neg h

variable {s' : Targets G}

omit [DecidableEq G] in
/-- The same tasks hold the same paths. -/
theorem Exclusive.congr (h : s.Exclusive) (hholds : ∀ g p, s'.Holds g p ↔ s.Holds g p)
    (hclaims : s'.claims = s.claims) : s'.Exclusive := by
  refine ⟨fun g g' p hg hg' => ?_, fun p => ?_⟩
  · exact h.apart g g' p ((hholds g p).mp hg) ((hholds g' p).mp hg')
  · rw [hclaims, h.claimed p]
    simp only [hholds]

omit [DecidableEq G] in
/-- One task gives its path back. -/
theorem Exclusive.release (h : s.Exclusive) (gid : G)
    (hholds : ∀ g p, s'.Holds g p ↔ s.Holds g p ∧ g ≠ gid)
    (hclaims : s'.claims = dropClaim s.claims (s.task gid).path)
    (hmine : ∀ p ∈ (s.task gid).path, p ∈ s.claims → s.Holds gid p) : s'.Exclusive := by
  have hpath : ∀ p, s.Holds gid p → (s.task gid).path = some p := fun p hp => hp.2.2
  refine ⟨fun g g' p hg hg' => ?_, fun p => ?_⟩
  · exact h.apart g g' p ((hholds g p).mp hg).1 ((hholds g' p).mp hg').1
  rw [hclaims]
  constructor
  · intro hp
    cases hq : (s.task gid).path with
    | none =>
      rw [hq] at hp
      obtain ⟨g, hg⟩ := (h.claimed p).mp hp
      refine ⟨g, (hholds g p).mpr ⟨hg, fun he => ?_⟩⟩
      subst he
      rw [hpath p hg] at hq
      cases hq
    | some q =>
      rw [hq] at hp
      obtain ⟨hp, hne⟩ := List.mem_filter.mp hp
      obtain ⟨g, hg⟩ := (h.claimed p).mp hp
      refine ⟨g, (hholds g p).mpr ⟨hg, fun he => ?_⟩⟩
      subst he
      rw [hpath p hg] at hq
      exact of_decide_eq_true hne (Option.some.inj hq)
  · rintro ⟨g, hg⟩
    obtain ⟨hg, hne⟩ := (hholds g p).mp hg
    have hp := (h.claimed p).mpr ⟨g, hg⟩
    cases hq : (s.task gid).path with
    | none => exact hp
    | some q =>
      refine List.mem_filter.mpr ⟨hp, decide_eq_true fun he => ?_⟩
      subst he
      exact hne (h.apart g gid p hg (hmine p hq hp))

omit [DecidableEq G] in
/-- One task that had no path gets one that was not claimed. -/
theorem Exclusive.claim (h : s.Exclusive) (gid : G) (hfree : p ∉ s.claims)
    (hholds : ∀ g q, s'.Holds g q ↔ s.Holds g q ∨ g = gid ∧ q = p)
    (hclaims : s'.claims = p :: s.claims) : s'.Exclusive := by
  have hnew : ∀ g, ¬s.Holds g p := fun g hg => hfree ((h.claimed p).mpr ⟨g, hg⟩)
  refine ⟨fun g g' q hg hg' => ?_, fun q => ?_⟩
  · rcases (hholds g q).mp hg with hg | ⟨rfl, rfl⟩
    · rcases (hholds g' q).mp hg' with hg' | ⟨rfl, rfl⟩
      · exact h.apart g g' q hg hg'
      · exact absurd hg (hnew g)
    · rcases (hholds g' q).mp hg' with hg' | ⟨rfl, -⟩
      · exact absurd hg' (hnew g')
      · rfl
  · rw [hclaims, List.mem_cons, h.claimed q]
    constructor
    · rintro (rfl | ⟨g, hg⟩)
      · exact ⟨gid, (hholds gid q).mpr (.inr ⟨rfl, rfl⟩)⟩
      · exact ⟨g, (hholds g q).mpr (.inl hg)⟩
    · rintro ⟨g, hg⟩
      rcases (hholds g q).mp hg with hg | ⟨-, rfl⟩
      · exact .inr ⟨g, hg⟩
      · exact .inl rfl

omit [DecidableEq G] in
/-- A task that holds a path it has not claimed. -/
theorem Exclusive.intrude (h : s.Exclusive) (gid : G) (hclaims : s'.claims = s.claims)
    (hmine : s'.Holds gid p) (hnot : ¬s.Holds gid p)
    (hother : ∀ g, g ≠ gid → s.Holds g p → s'.Holds g p) : ¬s'.Exclusive := by
  intro h'
  have hp : p ∈ s.claims := by
    rw [← hclaims]
    exact (h'.claimed p).mpr ⟨gid, hmine⟩
  obtain ⟨g, hg⟩ := (h.claimed p).mp hp
  have hne : g ≠ gid := by
    rintro rfl
    exact hnot hg
  exact hne (h'.apart g gid p (hother g hne hg) hmine)

theorem holds_modify_ne (h : g ≠ gid) : (s.modify gid f).Holds g p ↔ s.Holds g p := by
  unfold Holds
  rw [modify_task_ne h]
  exact Iff.rfl

/-- A task that changes neither its path nor whether it has ended. -/
theorem TargetsInv.modify (h : s.TargetsInv)
    (hstatus : (f (s.task gid)).status.isTerminal = (s.task gid).status.isTerminal)
    (hpath : (f (s.task gid)).path = (s.task gid).path) : (s.modify gid f).TargetsInv := by
  refine ⟨h.rule.congr (fun g p => ?_) rfl, fun g hg hm => ?_⟩
  · by_cases hg : g = gid
    · subst hg
      unfold Holds
      rw [modify_task_self, hstatus, hpath]
      exact Iff.rfl
    · exact holds_modify_ne hg
  · by_cases he : g = gid
    · subst he
      rw [modify_task_self, hstatus]
      exact h.stopped g hg hm
    · rw [modify_task_ne he]
      exact h.stopped g hg hm

theorem forget_stopped
    (h : ∀ g ∈ s.stoppedOrder, g ∈ s.tasks → g ≠ gid → (s.task g).status.isTerminal = true) :
    ∀ g ∈ (s.forget gid).stoppedOrder, g ∈ (s.forget gid).tasks →
      (s.task g).status.isTerminal = true := by
  intro g hg hm
  obtain ⟨hg, hne⟩ := List.mem_filter.mp hg
  exact h g hg (List.mem_filter.mp hm).1 (of_decide_eq_true hne)

theorem holds_forget : (s.forget gid).Holds g p ↔ s.Holds g p ∧ g ≠ gid := by
  show (g ∈ s.tasks.filter (· ≠ gid) ∧ _) ↔ (_ ∧ _) ∧ _
  rw [List.mem_filter, decide_eq_true_iff]
  constructor
  · rintro ⟨⟨hm, hne⟩, hrest⟩
    exact ⟨⟨hm, hrest⟩, hne⟩
  · rintro ⟨⟨hm, hrest⟩, hne⟩
    exact ⟨⟨hm, hne⟩, hrest⟩

/-! ## Steps -/

/-- A task that is removed gives its path back. -/
theorem removed_targetsInv (h : s.TargetsInv) (hf : ∀ t, (f t).path = t.path)
    (hmine : ∀ p ∈ (s.task gid).path, p ∈ s.claims → s.Holds gid p) :
    (((s.modify gid f).forget gid).unclaim gid).TargetsInv := by
  refine ⟨h.rule.release gid (fun g p => ?_) ?_ hmine, forget_stopped fun g hg hm hne => ?_⟩
  · refine holds_forget.trans ?_
    by_cases hne : g = gid
    · simp only [hne, ne_eq, not_true, and_false]
    · rw [holds_modify_ne hne]
  · show dropClaim s.claims ((s.modify gid f).task gid).path = _
    rw [modify_task_self, hf]
  · rw [modify_task_ne hne]
    exact h.stopped g hg hm

/-- The eviction of old results drops no task that has not ended. -/
theorem stop_targetsInv (h : s.TargetsInv) (hended : (s.task gid).status.isTerminal = true) :
    (s.stop gid).TargetsInv := by
  have htasks : ∀ g, g ∈ (s.stop gid).tasks ↔ g ∈ s.tasks ∧
      g ∉ (s.stoppedOrder ++ [gid]).take ((s.stoppedOrder ++ [gid]).length - maxResults) := by
    intro g
    unfold stop
    simp only [List.mem_filter, decide_eq_true_eq]
  have hstopped : ∀ g ∈ s.stoppedOrder ++ [gid], g ∈ s.tasks → (s.task g).status.isTerminal = true := by
    intro g hg hm
    cases List.mem_append.mp hg with
    | inl hg => exact h.stopped g hg hm
    | inr hg =>
      obtain rfl := List.mem_singleton.mp hg
      exact hended
  refine ⟨h.rule.congr (fun g p => ?_) rfl, fun g hg hm => ?_⟩
  · constructor
    · rintro ⟨hm, hrest⟩
      exact ⟨((htasks g).mp hm).1, hrest⟩
    · rintro ⟨hm, hlive, hp⟩
      refine ⟨(htasks g).mpr ⟨hm, fun hold => ?_⟩, hlive, hp⟩
      have := hstopped g (List.mem_of_mem_take hold) hm
      rw [show (s.task g).status.isTerminal = false from hlive] at this
      cases this
  · unfold stop at hg
    dsimp only at hg
    exact hstopped g (List.mem_of_mem_drop hg) ((htasks g).mp hm).1

/-- A worker ends with a path to give back. -/
theorem ended_targetsInv (h : s.TargetsInv) {status : Status} (hm : gid ∈ s.tasks)
    (hlive : (s.task gid).status.isTerminal = false) (hended : status.isTerminal = true) :
    (((s.modify gid fun t => { t with status }).unclaim gid).stop gid).TargetsInv := by
  refine stop_targetsInv ⟨h.rule.release gid (fun g p => ?_) ?_ fun p hp _ => ?_, ?_⟩ ?_
  · show (s.modify gid fun t => { t with status }).Holds g p ↔ _
    by_cases hne : g = gid
    · subst hne
      unfold Holds
      rw [modify_task_self]
      simp only [hended, ne_eq, not_true, and_false, Bool.true_eq_false, false_and]
    · rw [holds_modify_ne hne]
      simp only [hne, ne_eq, not_false_iff, and_true]
  · show dropClaim s.claims ((s.modify gid fun t => { t with status }).task gid).path = _
    rw [modify_task_self]
  · exact ⟨hm, hlive, hp⟩
  · intro g hg hm
    show ((s.modify gid fun t => { t with status }).task g).status.isTerminal = true
    by_cases hne : g = gid
    · rw [hne, modify_task_self]
      exact hended
    · rw [modify_task_ne hne]
      exact h.stopped g hg hm
  · show ((s.modify gid fun t => { t with status }).task gid).status.isTerminal = true
    rw [modify_task_self]
    exact hended

theorem endWorker_targetsInv (h : s.TargetsInv) (hworks : s.Works gid) (ending : Ending) :
    (s.endWorker gid ending).TargetsInv := by
  have hlive := writes_live hworks.2
  cases ending with
  | complete | error => exact ended_targetsInv h hworks.1 hlive rfl
  | paused | restarted =>
    exact h.modify (f := fun t => { t with status := _ }) hlive.symm rfl
  | removed => exact removed_targetsInv h (fun _ => rfl) fun p hp _ => ⟨hworks.1, hlive, hp⟩

theorem resolve_targetsInv (h : s.TargetsInv) {resolver : Resolver} {disk : Path → Nat}
    {rounds : Nat} (hstep : s.step (.resolve gid resolver disk rounds) = some s') :
    s'.TargetsInv := by
  obtain ⟨hworks, hstep⟩ := Option.ite_none_right_eq_some.mp hstep
  split at hstep
  · obtain rfl := Option.some.inj hstep
    exact h
  · rename_i hnone
    obtain ⟨p, hclaim, rfl⟩ := Option.map_eq_some_iff.mp hstep
    refine ⟨h.rule.claim gid (claimPath_not_claimed hclaim) (fun g q => ?_) rfl,
      fun g hg hm => ?_⟩
    · by_cases hne : g = gid
      · subst hne
        unfold Holds
        rw [modify_task_self]
        simp only [hnone, reduceCtorEq, and_false, false_or, true_and]
        constructor
        · rintro ⟨-, -, hq⟩
          exact (Option.some.inj hq).symm
        · rintro rfl
          exact ⟨hworks.1, writes_live hworks.2, rfl⟩
      · rw [holds_modify_ne hne]
        simp only [hne, false_and, or_false]
        exact Iff.rfl
    · by_cases hne : g = gid
      · subst hne
        rw [modify_task_self]
        exact h.stopped g hg hm
      · rw [modify_task_ne hne]
        exact h.stopped g hg hm

theorem resetPath_targetsInv (h : s.TargetsInv) (hworks : s.Works gid) :
    ((s.unclaim gid).modify gid fun t => { t with path := none }).TargetsInv := by
  refine ⟨h.rule.release gid (fun g p => ?_) rfl
    fun p hp _ => ⟨hworks.1, writes_live hworks.2, hp⟩, fun g hg hm => ?_⟩
  · by_cases hne : g = gid
    · subst hne
      unfold Holds
      rw [modify_task_self]
      simp only [reduceCtorEq, ne_eq, not_true, and_false]
    · rw [holds_modify_ne hne]
      simp only [hne, ne_eq, not_false_iff, and_true]
      exact Iff.rfl
  · by_cases hne : g = gid
    · subst hne
      rw [modify_task_self]
      exact h.stopped g hg hm
    · rw [modify_task_ne hne]
      exact h.stopped g hg hm

/-- The rerun of a failed task, which had no path to give back. -/
theorem rerun_targetsInv (h : s.TargetsInv) (hm : gid ∈ s.tasks) (hnone : (s.task gid).path = none) :
    ({ s with stoppedOrder := s.stoppedOrder.filter (· ≠ gid) }.modify gid
      fun t => { t with status := .waiting }).TargetsInv := by
  refine ⟨h.rule.congr (fun g p => ?_) rfl, fun g hg hm => ?_⟩
  · by_cases hne : g = gid
    · subst hne
      unfold Holds
      rw [modify_task_self]
      simp only [hnone, reduceCtorEq, and_false]
    · exact holds_modify_ne hne
  · obtain ⟨hg, hne⟩ := List.mem_filter.mp hg
    rw [modify_task_ne (of_decide_eq_true hne)]
    exact h.stopped g hg hm

theorem add_targetsInv (h : s.TargetsInv) {dir : Path} {out : Option (List Char)}
    (hnew : gid ∉ s.tasks) (hstopped : gid ∉ s.stoppedOrder) :
    ({ s with tasks := s.tasks ++ [gid] }.modify gid
      fun _ => ⟨.waiting, dir, out, none⟩).TargetsInv := by
  have hmem : ∀ g, g ≠ gid → (g ∈ s.tasks ++ [gid] ↔ g ∈ s.tasks) := by
    intro g hne
    simp only [List.mem_append, List.mem_singleton, hne, or_false]
  refine ⟨h.rule.congr (fun g p => ?_) rfl, fun g hg hm => ?_⟩
  · by_cases hne : g = gid
    · subst hne
      unfold Holds
      rw [modify_task_self]
      simp only [hnew, reduceCtorEq, and_false, false_and]
    · refine (holds_modify_ne hne).trans ?_
      show _ ∈ s.tasks ++ [gid] ∧ _ ↔ _
      rw [hmem g hne]
      exact Iff.rfl
  · have hne : g ≠ gid := by
      rintro rfl
      exact hstopped hg
    rw [modify_task_ne hne]
    exact h.stopped g hg ((hmem g hne).mp hm)

omit [DecidableEq G] in
/-- Tasks that have ended are dropped. -/
theorem drop_targetsInv (h : s.TargetsInv) (htasks : ∀ g, g ∈ s'.tasks → g ∈ s.tasks)
    (hlive : ∀ g ∈ s.tasks, (s.task g).status.isTerminal = false → g ∈ s'.tasks)
    (htask : s'.task = s.task) (hclaims : s'.claims = s.claims)
    (hstopped : ∀ g, g ∈ s'.stoppedOrder → g ∈ s.stoppedOrder) : s'.TargetsInv := by
  refine ⟨h.rule.congr (fun g p => ?_) hclaims, fun g hg hm => ?_⟩
  · unfold Holds
    rw [htask]
    constructor
    · rintro ⟨hm, hrest⟩
      exact ⟨htasks g hm, hrest⟩
    · rintro ⟨hm, hrest⟩
      exact ⟨hlive g hm hrest.1, hrest⟩
  · rw [htask]
    exact h.stopped g (hstopped g hg) (htasks g hm)

theorem restored_terminal (t : Target) : t.restored.status.isTerminal = t.status.isTerminal := by
  unfold Target.restored
  cases h : t.status with
  | _ => rfl

theorem mem_restore_tasks {session : Session G} :
    (g ∈ (restore session).tasks → g ∈ session.tasks) ∧
      (g ∈ session.tasks → (session.task g).status.isTerminal = false → g ∈ (restore session).tasks) := by
  unfold restore
  dsimp only
  generalize hstopped : (session.tasks.filter fun g => (session.task g).restored.status.isTerminal) =
    stopped
  rw [List.mem_filter, decide_eq_true_iff]
  refine ⟨fun h => h.1, fun hm hlive => ⟨hm, fun hold => ?_⟩⟩
  have hended := List.mem_of_mem_take hold
  rw [← hstopped] at hended
  have hended := (List.mem_filter.mp hended).2
  rw [restored_terminal, hlive] at hended
  cases hended

theorem restore_stopped {session : Session G} (h : g ∈ (restore session).stoppedOrder) :
    ((restore session).task g).status.isTerminal = true := by
  unfold restore at h ⊢
  dsimp only at h ⊢
  exact (List.mem_filter.mp (List.mem_of_mem_drop h)).2

/-- **One step** keeps the invariant, unless it is one of those that break the rule. -/
theorem step_targetsInv (s : Targets G) (e : Event G) (s' : Targets G) (h : s.TargetsInv)
    (hc : s.Reclaimed e) (hstep : s.step e = some s') : s'.TargetsInv := by
  cases e with
  | add gid dir out =>
    obtain ⟨⟨hnew, hstopped⟩, ⟨⟩⟩ := Option.ite_none_right_eq_some.mp hstep
    exact add_targetsInv h hnew hstopped
  | start gid | pause gid =>
    obtain ⟨⟨hm, hstatus⟩, ⟨⟩⟩ := Option.ite_none_right_eq_some.mp hstep
    exact h.modify (f := fun t => { t with status := _ }) (by rw [hstatus]; rfl) rfl
  | seed gid =>
    obtain ⟨hworks, ⟨⟩⟩ := Option.ite_none_right_eq_some.mp hstep
    exact h.modify (f := fun t => { t with status := .seeding }) (writes_live hworks.2).symm rfl
  | resolve gid resolver disk rounds => exact resolve_targetsInv h hstep
  | nameBt gid name =>
    obtain ⟨hworks, ⟨⟩⟩ := Option.ite_none_right_eq_some.mp hstep
    refine h.modify rfl ?_
    cases hpath : (s.task gid).path with
    | none => exact absurd hpath hc
    | some p => rfl
  | resetPath gid =>
    obtain ⟨hworks, ⟨⟩⟩ := Option.ite_none_right_eq_some.mp hstep
    exact resetPath_targetsInv h hworks
  | ends gid ending =>
    obtain ⟨hworks, ⟨⟩⟩ := Option.ite_none_right_eq_some.mp hstep
    exact endWorker_targetsInv h hworks ending
  | unpause gid =>
    rw [step] at hstep
    split at hstep
    · rename_i hpaused
      obtain rfl := Option.some.inj hstep
      exact h.modify (f := fun t => { t with status := .waiting }) (by rw [hpaused.2]; rfl) rfl
    · obtain ⟨⟨hm, hstatus⟩, ⟨⟩⟩ := Option.ite_none_right_eq_some.mp hstep
      exact rerun_targetsInv h hm (hc hstatus)
  | remove gid =>
    obtain ⟨⟨hm, -⟩, ⟨⟩⟩ := Option.ite_none_right_eq_some.mp hstep
    refine removed_targetsInv h (fun _ => rfl) fun p hp hclaimed => ?_
    by_cases hended : (s.task gid).status.isTerminal = true
    · exact absurd hclaimed (hc hended p hp)
    · exact ⟨hm, Bool.eq_false_iff.mpr hended, hp⟩
  | removeResult gid =>
    obtain ⟨⟨hm, hended⟩, ⟨⟩⟩ := Option.ite_none_right_eq_some.mp hstep
    refine drop_targetsInv h (fun g hg => (List.mem_filter.mp hg).1) (fun g hg hlive => ?_) rfl rfl
      fun g hg => (List.mem_filter.mp hg).1
    refine List.mem_filter.mpr ⟨hg, decide_eq_true ?_⟩
    rintro rfl
    rw [hended] at hlive
    cases hlive
  | purge =>
    obtain rfl := Option.some.inj hstep
    refine drop_targetsInv h (fun g hg => (List.mem_filter.mp hg).1) (fun g hg hlive => ?_) rfl rfl
      fun g hg => absurd hg nofun
    exact List.mem_filter.mpr ⟨hg, by rw [hlive]; rfl⟩
  | save =>
    obtain rfl := Option.some.inj hstep
    exact ⟨h.rule.congr (fun _ _ => Iff.rfl) rfl, h.stopped⟩
  | restart =>
    rw [step] at hstep
    split at hstep
    · obtain rfl := Option.some.inj hstep
      exact initial_targetsInv
    · rename_i session hsession
      obtain rfl := Option.some.inj hstep
      have hnone : ∀ g p, ¬(restore session).Holds g p := by
        rintro g p ⟨hm, hlive, hp⟩
        have hlive : (session.task g).restored.status.isTerminal = false := hlive
        rw [restored_terminal] at hlive
        have hp : (session.task g).path = some p := hp
        rw [hc session hsession g (mem_restore_tasks.1 hm) hlive] at hp
        cases hp
      exact ⟨⟨fun g _ p hg _ => absurd hg (hnone g p), fun p => ⟨nofun, fun ⟨g, hg⟩ =>
        absurd hg (hnone g p)⟩⟩, fun g hg _ => restore_stopped hg⟩

/-- A step that breaks the rule is seen at once. -/
theorem step_breaks_claims (s : Targets G) (e : Event G) (s' : Targets G) (h : s.TargetsInv)
    (hc : ¬s.Reclaimed e) (hstep : s.step e = some s') : ¬s'.Exclusive := by
  cases e with
  | unpause gid =>
    obtain ⟨herror, hpath⟩ := Classical.not_imp.mp hc
    obtain ⟨p, hp⟩ := Option.ne_none_iff_exists'.mp hpath
    have hpaused : ¬(gid ∈ s.tasks ∧ (s.task gid).status = .paused) := by
      rw [herror]
      exact fun h => absurd h.2 nofun
    rw [step, if_neg hpaused] at hstep
    obtain ⟨⟨hm, -⟩, ⟨⟩⟩ := Option.ite_none_right_eq_some.mp hstep
    refine h.rule.intrude gid (p := p) rfl ⟨hm, ?_, ?_⟩ (fun hg => ?_)
      fun g hne hg => (holds_modify_ne hne).mpr hg
    · rw [modify_task_self]
      rfl
    · rw [modify_task_self]
      exact hp
    · have hlive := hg.2.1
      rw [herror] at hlive
      cases hlive
  | nameBt gid name =>
    have hnone : (s.task gid).path = none := Classical.not_not.mp hc
    obtain ⟨hworks, ⟨⟩⟩ := Option.ite_none_right_eq_some.mp hstep
    refine h.rule.intrude gid (p := joinPath (s.task gid).dir name) rfl ⟨hworks.1, ?_, ?_⟩
      (fun hg => ?_) fun g hne hg => (holds_modify_ne hne).mpr hg
    · rw [modify_task_self]
      exact writes_live hworks.2
    · rw [modify_task_self]
      show (s.task gid).path.or _ = _
      rw [hnone]
      rfl
    · exact absurd (hnone.symm.trans hg.2.2) nofun
  | remove gid =>
    obtain ⟨hended, hclaimed⟩ := Classical.not_imp.mp hc
    obtain ⟨p, hclaimed⟩ := Classical.not_forall.mp hclaimed
    obtain ⟨hp, hclaimed⟩ := Classical.not_imp.mp hclaimed
    have hclaimed : p ∈ s.claims := Classical.not_not.mp hclaimed
    obtain ⟨⟨hm, -⟩, ⟨⟩⟩ := Option.ite_none_right_eq_some.mp hstep
    obtain ⟨g, hg⟩ := (h.rule.claimed p).mp hclaimed
    have hne : g ≠ gid := by
      rintro rfl
      exact absurd (hg.2.1.symm.trans hended) nofun
    intro h'
    have hgone := (h'.claimed p).mpr ⟨g, holds_forget.mpr ⟨(holds_modify_ne hne).mpr hg, hne⟩⟩
    have hpath : ((s.modify gid fun t => { t with status := .removed }).task gid).path = some p := by
      rw [modify_task_self]
      exact hp
    have hgone : p ∈ dropClaim s.claims
      ((s.modify gid fun t => { t with status := .removed }).task gid).path := hgone
    rw [hpath] at hgone
    exact of_decide_eq_true (List.mem_filter.mp hgone).2 rfl
  | restart =>
    obtain ⟨session, hc⟩ := Classical.not_forall.mp hc
    obtain ⟨hsession, hc⟩ := Classical.not_imp.mp hc
    obtain ⟨g, hc⟩ := Classical.not_forall.mp hc
    obtain ⟨hm, hc⟩ := Classical.not_imp.mp hc
    obtain ⟨hlive, hpath⟩ := Classical.not_imp.mp hc
    obtain ⟨p, hp⟩ := Option.ne_none_iff_exists'.mp hpath
    rw [step, Option.mem_def.mp hsession] at hstep
    obtain rfl := Option.some.inj hstep
    intro h'
    have hclaimed := (h'.claimed p).mpr ⟨g, mem_restore_tasks.2 hm hlive, ?_, hp⟩
    · cases hclaimed
    · exact (restored_terminal (session.task g)).trans hlive
  | _ => exact absurd trivial hc

/-- **Target paths are exclusive**, and the claims those of the tasks that have not ended, in every
state of a run, if and only if no step of the run is one of those that break the rule. -/
theorem exclusive_iff_reclaimed {es : List (Event G)} {t : Targets G}
    (hrun : StepRun.run step initial es = some t) :
    StepRun.Everywhere step Exclusive initial es ↔ StepRun.Along step Reclaimed initial es :=
  StepRun.everywhere_iff_along (fun _ h => h.rule) step_targetsInv step_breaks_claims
    initial_targetsInv hrun

/-- A resource of a hundred bytes, of which ranges may be asked for. -/
def archive : Resolver := resolvePath true ⟨some ['a', '.', 'z', 'i', 'p'], true, some 100⟩

/-- Two downloads of one name, of which the second takes another path; one is paused and goes on, one
ends and is removed. -/
theorem two_downloads_exclusive :
    StepRun.Everywhere step Exclusive (initial : Targets Bool)
      [.add false [['d']] none, .start false, .resolve false archive (fun _ => 0) 1,
        .add true [['d']] none, .start true, .resolve true archive (fun _ => 0) 2,
        .ends false .paused, .ends true .complete, .remove true, .unpause false, .start false,
        .resolve false archive (fun _ => 40) 1, .ends false .complete] :=
  (exclusive_iff_reclaimed rfl).mpr (by decide +kernel)

/-! ## A rerun under another task's path -/

/-- A download fails with a part of its file on disk, another one of the same name goes on with the
file, and the first is run again. -/
def rerunOverResume : List (Event Bool) :=
  [.add false [['d']] none, .start false, .resolve false archive (fun _ => 0) 1, .ends false .error,
    .add true [['d']] none, .start true, .resolve true archive (fun _ => 40) 1,
    .unpause false, .start false]

/-- Two workers write the same file. -/
theorem rerunOverResume_shares :
    ∃ t, StepRun.run step (initial : Targets Bool) rerunOverResume = some t ∧ t.Works false ∧
      t.Works true ∧ (t.task false).path = (t.task true).path ∧ ¬t.Exclusive := by
  have hrun : (StepRun.run step (initial : Targets Bool) rerunOverResume).map
      (fun t => (decide (t.Works false ∧ t.Works true), (t.task false).path, (t.task true).path)) =
        some (true, some [['d'], ['a', '.', 'z', 'i', 'p']],
          some [['d'], ['a', '.', 'z', 'i', 'p']]) := by
    decide +kernel
  obtain ⟨t, ht, hend⟩ := Option.map_eq_some_iff.mp hrun
  simp only [Prod.mk.injEq, decide_eq_true_eq] at hend
  obtain ⟨⟨hfalse, htrue⟩, hp, hq⟩ := hend
  exact ⟨t, ht, hfalse, htrue, hp.trans hq.symm, fun h => absurd (h.works hfalse htrue hp hq) nofun⟩

end Targets
end XferRust.Engine
