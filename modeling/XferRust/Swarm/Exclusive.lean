import XferRust.Swarm.ReservationSteps

/-! # Reservations are exclusive

A piece that is assigned is in one place: in the queue of one session, with the task of one
session that is between its two locks, or with one call of `unregister_peer` (`Kept`).  Every
step hands pieces from one such place to another, except where `unregister_peer` takes the queue
of a session that is receiving a block: the piece is free then, may go to another session, and
is released a second time when the first one comes to `release_piece`.
-/
namespace XferRust.Swarm

open StepRun

/-- Where an assigned piece can be. -/
inductive Place where
  | queue (i : Nat)
  | task (i : Nat)
  | evictor (j : Nat)
  deriving DecidableEq

/-- The pieces that a task has in hand between two locks. -/
def Task.held : Task → List Nat
  | .reserved p | .unqueued p => [p]
  | .choked taken => taken
  | _ => []

/-- The piece that a task goes back to the queue for. -/
def Task.target : Task → Option Nat
  | .receiving p | .received p => some p
  | _ => none

/-- The steps that finish what was begun under another lock.  No check stands before them, and no
message or timer has to come. -/
def Event.Finishes : Event → Prop
  | .push _ | .unassign _ | .chokeRelease _ | .release _ => True
  | _ => False

namespace Engine

/-- The pieces at a place. -/
def hold (s : Engine) : Place → List Nat
  | .queue i => (s.session i).queued
  | .task i => (s.session i).task.held
  | .evictor j => s.evictor j

/-! ## How the changes of a session show -/

@[simp] theorem session_modify_self (s : Engine) (i : Nat) (f : Session → Session) :
    (s.modify i f).session i = f (s.session i) := Function.update_self ..

variable {s : Engine} {i : Nat}

theorem session_modify_of_ne {k : Nat} (h : k ≠ i) (f : Session → Session) :
    (s.modify i f).session k = s.session k := Function.update_of_ne h ..

theorem hold_modify_of_ne {a : Place} (f : Session → Session) (hq : a ≠ .queue i)
    (ht : a ≠ .task i) : (s.modify i f).hold a = s.hold a := by
  cases a with
  | queue k =>
    have hk : k ≠ i := fun hk => hq (hk ▸ rfl)
    exact congrArg Session.queued (session_modify_of_ne hk f)
  | task k =>
    have hk : k ≠ i := fun hk => ht (hk ▸ rfl)
    exact congrArg (fun x => x.task.held) (session_modify_of_ne hk f)
  | evictor j => rfl

theorem hold_modify_queue (s : Engine) (i : Nat) (f : Session → Session) :
    (s.modify i f).hold (.queue i) = (f (s.session i)).queued :=
  congrArg Session.queued (session_modify_self s i f)

theorem hold_modify_task (s : Engine) (i : Nat) (f : Session → Session) :
    (s.modify i f).hold (.task i) = (f (s.session i)).task.held :=
  congrArg (fun x => x.task.held) (session_modify_self s i f)

variable {f : Session → Session}

/-- A change that leaves the queue and what is in hand moves no piece. -/
theorem hold_modify_same (hq : (f (s.session i)).queued = (s.session i).queued)
    (ht : (f (s.session i)).task.held = (s.session i).task.held) :
    (s.modify i f).hold = s.hold := by
  funext a
  by_cases haq : a = .queue i
  · rw [haq, hold_modify_queue]
    exact hq
  by_cases hat : a = .task i
  · rw [hat, hold_modify_task]
    exact ht
  exact hold_modify_of_ne f haq hat

theorem hold_goto_same {t : Task} (ht : t.held = (s.session i).task.held) :
    (s.goto i t).hold = s.hold :=
  hold_modify_same rfl ht

theorem hold_goto_queue (s : Engine) (i : Nat) (t : Task) :
    (s.goto i t).hold (.queue i) = s.hold (.queue i) :=
  hold_modify_queue s i fun x => { x with task := t }

theorem hold_goto_task (s : Engine) (i : Nat) (t : Task) :
    (s.goto i t).hold (.task i) = t.held := hold_modify_task s i fun x => { x with task := t }

/-- Only the task of the session shows when it goes on. -/
theorem hold_goto_of_ne {a : Place} (t : Task) (ht : a ≠ .task i) :
    (s.goto i t).hold a = s.hold a := by
  by_cases hq : a = .queue i
  · rw [hq, hold_goto_queue]
  · exact hold_modify_of_ne (fun x => { x with task := t }) hq ht

/-! ## The invariant -/

/-- What holds of the reservations in every state. -/
structure Kept (s : Engine) : Prop where
  custody : Custody s.hold s.assigned
  /-- A piece that a block is being received of is still in the queue. -/
  target : ∀ i p, (s.session i).task.target = some p → p ∈ (s.session i).queued
  gone : ∀ i, (s.session i).task = .over → (s.session i).queued = []

/-- No call of `unregister_peer` takes the queue of a session that is between the two looks at it
of the `Piece` message. -/
def Undisturbed (s : Engine) : Event → Prop
  | .take i _ => (s.session i).task.target = none
  | _ => True

instance (s : Engine) : DecidablePred s.Undisturbed := fun e => by
  cases e <;> unfold Undisturbed <;> infer_instance

variable {count : Nat}

theorem kept_start (done : List Nat) (wanted : Option (List Nat)) : (start done wanted).Kept where
  custody := by
    have hempty : (start done wanted).hold = fun _ => [] := by
      funext a
      cases a <;> rfl
    rw [hempty]
    exact Custody.empty
  target := by
    intro i p h
    cases h
  gone := by
    intro i h
    cases h

/-- The two clauses about single sessions, of a step that changes one session. -/
theorem sessions_modify (h : s.Kept)
    (htarget : ∀ p, (f (s.session i)).task.target = some p → p ∈ (f (s.session i)).queued)
    (hover : (f (s.session i)).task = .over → (f (s.session i)).queued = []) :
    (∀ k p, ((s.modify i f).session k).task.target = some p →
        p ∈ ((s.modify i f).session k).queued) ∧
      ∀ k, ((s.modify i f).session k).task = .over → ((s.modify i f).session k).queued = [] := by
  refine ⟨fun k => ?_, fun k => ?_⟩ <;> by_cases hk : k = i
  · subst hk
    rw [session_modify_self]
    exact htarget
  · rw [session_modify_of_ne hk]
    exact h.target k
  · subst hk
    rw [session_modify_self]
    exact hover
  · rw [session_modify_of_ne hk]
    exact h.gone k

/-- A task that goes on without a piece moving. -/
theorem Kept.goto {t : Task} (h : s.Kept) (ht : t.held = (s.session i).task.held)
    (htarget : ∀ p, t.target = some p → p ∈ (s.session i).queued) (hover : t ≠ .over) :
    (s.goto i t).Kept := by
  obtain ⟨h₁, h₂⟩ := sessions_modify (f := fun x => { x with task := t }) h htarget
    (fun hto => absurd hto hover)
  exact ⟨(hold_goto_same ht).symm ▸ h.custody, h₁, h₂⟩

/-- A change of a session that its queue and its task have no part in. -/
theorem Kept.aside (h : s.Kept) (hq : (f (s.session i)).queued = (s.session i).queued)
    (ht : (f (s.session i)).task = (s.session i).task) : (s.modify i f).Kept := by
  obtain ⟨h₁, h₂⟩ := sessions_modify (i := i) (f := f) h
    (fun p hp => by rw [hq]; exact h.target i p (ht ▸ hp))
    (fun hto => by rw [hq]; exact h.gone i (ht ▸ hto))
  exact ⟨(hold_modify_same hq (congrArg Task.held ht)).symm ▸ h.custody, h₁, h₂⟩

/-- A free piece is assigned, and is in the hand of the task. -/
theorem Kept.assign {p : Nat} (h : s.Kept) (hempty : (s.session i).task.held = [])
    (hfree : p ∉ s.assigned) :
    Kept { s.goto i (.reserved p) with assigned := p :: s.assigned } := by
  obtain ⟨h₁, h₂⟩ := sessions_modify (f := fun x => { x with task := .reserved p }) h
    (i := i) (fun _ hp => nomatch hp) (fun hto => nomatch hto)
  refine ⟨?_, h₁, h₂⟩
  have htask : (s.goto i (.reserved p)).hold (.task i) = [p] := hold_goto_task s i (.reserved p)
  refine h.custody.enter (a := .task i) hfree ?_ (fun y => ?_) (fun b hb => ?_)
    (fun y => List.mem_cons)
  · show ((s.goto i (.reserved p)).hold (.task i)).Nodup
    rw [htask]
    exact List.nodup_cons.mpr ⟨List.not_mem_nil, List.nodup_nil⟩
  · show y ∈ (s.goto i (.reserved p)).hold (.task i) ↔ y = p ∨ y ∈ (s.session i).task.held
    rw [htask, hempty, List.mem_singleton]
    simp only [List.not_mem_nil, or_false]
  · exact hold_goto_of_ne (.reserved p) hb

/-- Pieces go from the hand of the task into the queue, or the other way. -/
theorem Kept.handOver (h : s.Kept)
    (hperm : ((f (s.session i)).queued ++ (f (s.session i)).task.held).Perm
      ((s.session i).queued ++ (s.session i).task.held))
    (htarget : (f (s.session i)).task.target = none) (hover : (f (s.session i)).task ≠ .over) :
    (s.modify i f).Kept := by
  obtain ⟨h₁, h₂⟩ := sessions_modify (i := i) (f := f) h
    (fun p hp => by rw [htarget] at hp; cases hp) (fun hto => absurd hto hover)
  refine ⟨?_, h₁, h₂⟩
  refine h.custody.handOver (a := .queue i) (b := .task i) (fun heq => nomatch heq) ?_
    (fun c hq ht => hold_modify_of_ne f hq ht)
  rw [hold_modify_queue, hold_modify_task]
  exact hperm

/-- What a task has in hand leaves `assigned`. -/
theorem Kept.putBack {assigned : List Nat} (h : s.Kept)
    (hreg : ∀ p, p ∈ assigned ↔ p ∈ s.assigned ∧ p ∉ (s.session i).task.held) :
    Kept { s.goto i .idle with assigned } := by
  obtain ⟨h₁, h₂⟩ := sessions_modify (f := fun x => { x with task := .idle }) h
    (i := i) (fun _ hp => nomatch hp) (fun hto => nomatch hto)
  refine ⟨?_, h₁, h₂⟩
  exact h.custody.leave (a := .task i) (hold_goto_task s i .idle)
    (fun b hb => hold_goto_of_ne .idle hb) hreg

/-- A queue goes to a call of `unregister_peer` that has nothing. -/
theorem Kept.takeQueue {j : Nat} {t : Task} (h : s.Kept) (hfree : s.evictor j = [])
    (ht : t.held = (s.session i).task.held) (htarget : t.target = none) :
    (s.takeQueue i j t).Kept := by
  let f : Session → Session := fun x => { x with live := false, queued := [], task := t }
  obtain ⟨h₁, h₂⟩ := sessions_modify (i := i) (f := f) h
    (fun p hp => by rw [htarget] at hp; cases hp) (fun _ => rfl)
  refine ⟨?_, h₁, h₂⟩
  have hqueue : (s.takeQueue i j t).hold (.queue i) = [] := hold_modify_queue s i f
  have hevictor : (s.takeQueue i j t).hold (.evictor j) = (s.session i).queued :=
    Function.update_self ..
  refine h.custody.handOver (a := .queue i) (b := .evictor j) (fun heq => nomatch heq) ?_
    (fun c hq he => ?_)
  · rw [hqueue, hevictor]
    show List.Perm _ ((s.session i).queued ++ s.evictor j)
    rw [hfree, List.append_nil, List.nil_append]
  · cases c with
    | queue k =>
      have hk : k ≠ i := fun hk => hq (hk ▸ rfl)
      exact congrArg Session.queued (session_modify_of_ne hk f)
    | task k =>
      by_cases hk : k = i
      · subst hk
        exact (congrArg (fun x => x.task.held) (session_modify_self s k f)).trans ht
      · exact congrArg (fun x => x.task.held) (session_modify_of_ne hk f)
    | evictor k =>
      have hk : k ≠ j := fun hk => he (hk ▸ rfl)
      exact Function.update_of_ne hk ..

/-- What a call of `unregister_peer` took leaves `assigned`. -/
theorem Kept.release {j : Nat} (h : s.Kept) :
    Kept { s with
      assigned := s.assigned.filter (· ∉ s.evictor j)
      evictor := Function.update s.evictor j [] } := by
  refine ⟨?_, h.target, h.gone⟩
  refine h.custody.leave (a := .evictor j) (Function.update_self ..) (fun b hb => ?_) (fun y => ?_)
  · cases b with
    | queue k => rfl
    | task k => rfl
    | evictor k =>
      have hk : k ≠ j := fun hk => hb (hk ▸ rfl)
      exact Function.update_of_ne hk ..
  · rw [List.mem_filter]
    simp only [decide_not, Bool.not_eq_true', decide_eq_false_iff_not]
    rfl

/-- **Step.**  A step that does not take a queue from under a receiving task keeps the
reservations. -/
theorem Kept.step {s' : Engine} {e : Event} (h : s.Kept) (hundisturbed : s.Undisturbed e)
    (hstep : s.Step count e s') : s'.Kept := by
  cases hstep with
  | learn _ | haveNone _ | kill => exact h.aside rfl rfl
  | suggestIgnored _ | pieceDropped _ => exact h
  | suggestPiece hidle _ | snapshot hidle | finish hidle =>
    exact h.goto (by rw [hidle]; rfl) (fun _ hp => nomatch hp) (fun hto => nomatch hto)
  | suggestRoom hat | suggestNoRoom hat | suggestAssigned hat _ | list hat | giveUp hat _
  | incomplete hat =>
    exact h.goto (by rw [hat]; rfl) (fun _ hp => nomatch hp) (fun hto => nomatch hto)
  | suggestAssign hat hfree => exact h.assign (by rw [hat]; rfl) hfree
  | assign hat _ hfree => exact h.assign (by rw [hat]; rfl) hfree
  | @push i p hat =>
    refine h.handOver ?_ rfl (fun hto => nomatch hto)
    rw [hat]
    show List.Perm ((s.session i).queued ++ [p] ++ []) ((s.session i).queued ++ [p])
    rw [List.append_nil]
  | @piece i p hidle hmem =>
    refine h.goto (by rw [hidle]; rfl) (fun q hq => ?_) (fun hto => nomatch hto)
    cases hq
    exact hmem
  | @accepted i p hat _ =>
    have hkept : (s.goto i (.received p)).Kept :=
      h.goto (by rw [hat]; rfl) (fun q hq => h.target i q (by rw [hat]; exact hq))
        (fun hto => nomatch hto)
    exact ⟨hkept.custody, hkept.target, hkept.gone⟩
  | @refused i p _ hat =>
    exact h.goto (by rw [hat]; rfl) (fun q hq => h.target i q (by rw [hat]; exact hq))
      (fun hto => nomatch hto)
  | @unqueue i p hat =>
    refine h.handOver ?_ rfl (fun hto => nomatch hto)
    have hmem : p ∈ (s.session i).queued := h.target i p (by rw [hat]; rfl)
    have hnodup : (s.session i).queued.Nodup := h.custody.nodup (.queue i)
    rw [hat]
    show List.Perm ((s.session i).queued.filter (· ≠ p) ++ [p]) ((s.session i).queued ++ [])
    rw [List.append_nil]
    have herase : (s.session i).queued.erase p = (s.session i).queued.filter (· ≠ p) := by
      rw [hnodup.erase_eq_filter]
      refine List.filter_congr fun q _ => ?_
      rw [Bool.eq_iff_iff, bne_iff_ne, decide_eq_true_iff]
    rw [← herase]
    exact List.perm_append_singleton .. |>.trans (List.perm_cons_erase hmem).symm
  | @unassign i p hat =>
    refine h.putBack fun q => ?_
    rw [hat, List.mem_filter]
    show q ∈ s.assigned ∧ decide (q ≠ p) = true ↔ q ∈ s.assigned ∧ q ∉ [p]
    rw [decide_eq_true_iff, List.mem_singleton]
  | @choke i hidle =>
    refine h.handOver ?_ rfl (fun hto => nomatch hto)
    rw [hidle]
    show List.Perm ([] ++ (s.session i).queued) ((s.session i).queued ++ [])
    rw [List.append_nil, List.nil_append]
  | @chokeRelease i taken hat =>
    refine h.putBack fun q => ?_
    rw [hat, List.mem_filter]
    show q ∈ s.assigned ∧ decide (q ∉ taken) = true ↔ q ∈ s.assigned ∧ q ∉ taken
    rw [decide_eq_true_iff]
  | take _ hfree => exact h.takeQueue hfree rfl hundisturbed
  | release => exact h.release
  | takeOwn hat hfree => exact h.takeQueue hfree (by rw [hat]; rfl) rfl
  | select => exact ⟨h.custody, h.target, h.gone⟩

/-! ## What follows for the sessions -/

variable (count) in
/-- A piece is in the queue of a session that is not over, or the next step of the task that has
it in hand puts it into its queue or takes it out of `assigned`. -/
def Settles (s : Engine) (p : Nat) : Prop :=
  (∃ i, (s.session i).task ≠ .over ∧ p ∈ (s.session i).queued) ∨
    ∃ e s', e.Finishes ∧ s.step count e = some s' ∧
      (p ∉ s'.assigned ∨ ∃ i, (s'.session i).task ≠ .over ∧ p ∈ (s'.session i).queued)

variable (count) in
/-- The reservations are exclusive. -/
structure Exclusive (s : Engine) : Prop where
  apart : ∀ i j p, (s.session i).live = true → (s.session j).live = true →
    p ∈ (s.session i).queued → p ∈ (s.session j).queued → i = j
  assigned : ∀ i p, p ∈ (s.session i).queued → p ∈ s.assigned
  settles : ∀ p ∈ s.assigned, s.Settles count p

/-- A piece in hand is on its way. -/
theorem settles_of_held {p : Nat} (hp : p ∈ (s.session i).task.held) : s.Settles count p := by
  refine .inr ?_
  cases ht : (s.session i).task with
  | reserved q =>
    rw [ht] at hp
    obtain rfl : p = q := List.mem_singleton.mp hp
    let f : Session → Session := fun x => { x with queued := x.queued ++ [p], task := .idle }
    refine ⟨.push i, s.modify i f, trivial, ?_, .inr ⟨i, ?_, ?_⟩⟩
    · dsimp only [step]
      rw [ht]
    · rw [session_modify_self]
      exact fun hto => nomatch hto
    · rw [session_modify_self]
      exact List.mem_append_right _ hp
  | unqueued q =>
    rw [ht] at hp
    refine ⟨.unassign i, { s.goto i .idle with assigned := s.assigned.filter (· ≠ q) }, trivial, ?_,
      .inl fun hin => ?_⟩
    · dsimp only [step]
      rw [ht]
    · exact of_decide_eq_true (List.mem_filter.mp hin).2 (List.mem_singleton.mp hp)
  | choked taken =>
    rw [ht] at hp
    refine ⟨.chokeRelease i, { s.goto i .idle with assigned := s.assigned.filter (· ∉ taken) },
      trivial, ?_, .inl fun hin => ?_⟩
    · dsimp only [step]
      rw [ht]
    · exact of_decide_eq_true (List.mem_filter.mp hin).2 hp
  | _ =>
    rw [ht] at hp
    cases hp

/-- The invariant gives the reservations their meaning. -/
theorem Kept.exclusive (h : s.Kept) : s.Exclusive count where
  apart := by
    intro i j p _ _ hi hj
    have heq := h.custody.apart (.queue i) (.queue j) p hi hj
    exact Place.queue.inj heq
  assigned := fun i p hp => h.custody.mem_register (a := .queue i) hp
  settles := by
    intro p hp
    obtain ⟨a, ha⟩ := (h.custody.registered p).mp hp
    cases a with
    | queue i =>
      refine .inl ⟨i, fun hover => ?_, ha⟩
      have hempty := h.gone i hover
      have hp' : p ∈ (s.session i).queued := ha
      rw [hempty] at hp'
      cases hp'
    | task i => exact settles_of_held ha
    | evictor j =>
      refine .inr ⟨.release j, _, trivial, rfl, .inl fun hin => ?_⟩
      exact of_decide_eq_true (List.mem_filter.mp hin).2 ha

/-- **Reservations are exclusive** in every state of a run in which no queue is taken from under a
task that is receiving a block. -/
theorem reservations_exclusive (count : Nat) {done : List Nat} {wanted : Option (List Nat)}
    {es : List Event} (h : Along (step count) Undisturbed (start done wanted) es) :
    Everywhere (step count) (Exclusive count) (start done wanted) es :=
  everywhere_of_along (J := Kept) (fun _ hs => hs.exclusive)
    (fun _ _ _ hs hP hstep => hs.step hP (step_inv hstep)) (kept_start done wanted) h

/-- Two sessions, one after the other, reserve the only piece: the first is choked in between. -/
def chokedRun : List Event :=
  [.learn 0 [0], .snapshot 0, .list 0, .assign 0 0, .push 0, .piece 0 0, .incomplete 0, .choke 0,
    .chokeRelease 0, .learn 1 [0], .snapshot 1, .list 1, .assign 1 0, .push 1, .kill 0, .take 0 0,
    .release 0]

theorem chokedRun_exclusive :
    Everywhere (step 1) (Exclusive 1) (start [] none) chokedRun :=
  reservations_exclusive 1 (by decide)

/-- Session 0 is evicted while it receives a block of the only piece; session 1 reserves the piece,
and session 0 releases it a second time, so that session 2 reserves it too. -/
def evictedRun : List Event :=
  [.learn 0 [0], .snapshot 0, .list 0, .assign 0 0, .push 0, .piece 0 0, .kill 0, .take 0 0,
    .release 0, .learn 1 [0], .snapshot 1, .list 1, .assign 1 0, .push 1, .accept 0 false,
    .unqueue 0, .unassign 0, .learn 2 [0], .snapshot 2, .list 2, .assign 2 0, .push 2]

/-- The run ends with the piece in the queues of two live sessions; and right after the second
release it was in a queue and not assigned. -/
theorem evictedRun_shared :
    (∃ s, run (step 1) (start [] none) evictedRun = some s ∧ (s.session 1).live = true ∧
      (s.session 2).live = true ∧ 0 ∈ (s.session 1).queued ∧ 0 ∈ (s.session 2).queued) ∧
    (∃ s, run (step 1) (start [] none) (evictedRun.take 17) = some s ∧
      0 ∈ (s.session 1).queued ∧ 0 ∉ s.assigned) ∧
    ¬ Everywhere (step 1) (Exclusive 1) (start [] none) evictedRun := by
  have htwo : ∃ s, run (step 1) (start [] none) evictedRun = some s ∧ (s.session 1).live = true ∧
      (s.session 2).live = true ∧ 0 ∈ (s.session 1).queued ∧ 0 ∈ (s.session 2).queued :=
    ⟨_, rfl, by decide, by decide, by decide, by decide⟩
  refine ⟨htwo, ⟨_, rfl, by decide, by decide⟩, fun hall => ?_⟩
  obtain ⟨s, hrun, h₁, h₂, hq₁, hq₂⟩ := htwo
  have hexcl := hall evictedRun.length s (by rw [List.take_length]; exact hrun)
  have heq := hexcl.apart 1 2 0 h₁ h₂ hq₁ hq₂
  cases heq

end Engine

end XferRust.Swarm
