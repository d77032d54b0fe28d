import XferRust.Swarm.Exclusive

/-! # Which pieces are reserved

The picker reserves a piece that it saw in range, wanted, missing, and with the peer.  The
handler of `SuggestPiece` looks at the store, the queue and `assigned` only, and a peer that had
pieces may say that it has none: so the queue can come to hold a piece that does not exist, that
no selected file needs, or that the peer does not have.
-/
namespace XferRust.Swarm

/-- The piece that a task is about to enter because the peer suggested it. -/
def Task.suggestion : Task → Option Nat
  | .roomy p => some p
  | _ => none

/-- The task has a choice of pieces, or one piece, that is not yet in the queue. -/
def Task.chooses : Task → Bool
  | .snapped _ | .choosing _ | .reserved _ => true
  | _ => false

/-- What holds of one session, for the pieces that are done and those that are wanted. -/
structure Session.Good (count : Nat) (done : List Nat) (wanted : Nat → Bool) (x : Session) :
    Prop where
  reserved : ∀ p, p ∈ x.queued ∨ x.task = .reserved p →
    p < count ∧ wanted p = true ∧ p ∈ x.have_ ∧ (p ∉ done ∨ x.task = .received p)
  snapped : ∀ missing, x.task = .snapped missing → ∀ p ∈ missing, p < count
  choosing : ∀ candidates, x.task = .choosing candidates →
    ∀ p ∈ candidates, p < count ∧ p ∈ x.have_

namespace Session.Good

variable {count : Nat} {done : List Nat} {wanted : Nat → Bool} {x : Session}

theorem new : Session.new.Good count done wanted := by
  refine ⟨?_, ?_, ?_⟩
  · rintro p (hp | hp) <;> cases hp
  · intro missing h
    cases h
  · intro candidates h
    cases h

/-- A queued piece of a session that is not releasing one is missing. -/
theorem missing (h : x.Good count done wanted) (ht : ∀ p, x.task ≠ .received p) {p : Nat}
    (hp : p ∈ x.queued ∨ x.task = .reserved p) : p ∉ done := by
  rcases (h.reserved p hp).2.2.2 with hno | hto
  · exact hno
  · exact absurd hto (ht p)

/-- A task goes on to where it has chosen nothing. -/
theorem goto {t : Task} (h : x.Good count done wanted) (hfrom : ∀ p, x.task ≠ .received p)
    (ht : t.chooses = false) : ({ x with task := t } : Session).Good count done wanted where
  reserved := by
    rintro p (hp | rfl)
    · obtain ⟨hlt, hwanted, hhave, -⟩ := h.reserved p (.inl hp)
      exact ⟨hlt, hwanted, hhave, .inl (h.missing hfrom (.inl hp))⟩
    · cases ht
  snapped := by
    rintro m rfl
    cases ht
  choosing := by
    rintro c rfl
    cases ht

/-- A task reserves a piece that is as it should be. -/
theorem reserve {p : Nat} (h : x.Good count done wanted) (hfrom : ∀ q, x.task ≠ .received q)
    (hp : p < count ∧ wanted p = true ∧ p ∈ x.have_ ∧ p ∉ done) :
    ({ x with task := .reserved p } : Session).Good count done wanted where
  reserved := by
    rintro q (hq | hq)
    · obtain ⟨hlt, hwanted, hhave, -⟩ := h.reserved q (.inl hq)
      exact ⟨hlt, hwanted, hhave, .inl (h.missing hfrom (.inl hq))⟩
    · obtain rfl : p = q := Task.reserved.inj hq
      exact ⟨hp.1, hp.2.1, hp.2.2.1, .inl hp.2.2.2⟩
  snapped := fun _ hm => nomatch hm
  choosing := fun _ hc => nomatch hc

/-- The queue is taken. -/
theorem emptied (live : Bool) (h : x.Good count done wanted) (hto : ∀ p, x.task ≠ .received p) :
    ({ x with live := live, queued := [] } : Session).Good count done wanted where
  reserved := by
    rintro p (hp | hp)
    · cases hp
    · obtain ⟨hlt, hwanted, hhave, -⟩ := h.reserved p (.inr hp)
      exact ⟨hlt, hwanted, hhave, .inl (h.missing hto (.inr hp))⟩
  snapped := h.snapped
  choosing := h.choosing

end Session.Good

namespace Engine

open StepRun

variable (count : Nat)

/-- Only useful pieces are queued: each exists, is wanted, is with the peer, and is missing until
its session stores it and releases it; and blocks are received of queued pieces only. -/
structure OnlyUseful (s : Engine) : Prop where
  queued : ∀ i p, p ∈ (s.session i).queued →
    p < count ∧ s.pieceWanted p = true ∧ p ∈ (s.session i).have_ ∧
      (p ∉ s.done ∨ (s.session i).task = .received p)
  receiving : ∀ i p, (s.session i).task = .receiving p → p ∈ (s.session i).queued

/-- A piece that `SuggestPiece` is about to enter: it is assigned, and so is not entered, or it is
a piece as the picker would choose it. -/
def Suits (s : Engine) (i : Nat) : Option Nat → Prop
  | none => True
  | some p => p ∈ s.assigned ∨
    (p < count ∧ s.pieceWanted p = true ∧ p ∈ (s.session i).have_ ∧ p ∉ s.done)

instance (s : Engine) (i : Nat) : DecidablePred (s.Suits count i) := fun o => by
  cases o <;> unfold Suits <;> infer_instance

/-- The steps that keep to useful pieces: no queue is taken from under a receiving task;
`SuggestPiece` reserves a piece that exists, is wanted, is with the peer, and is still missing;
a candidate of the picker is still wanted and missing when it is entered; `HaveNone` comes from
a peer of which nothing is queued; and a change of the selection keeps what is assigned. -/
def Sensible (s : Engine) : Event → Prop
  | .take i _ => (s.session i).task.target = none
  | .haveNone i => (s.session i).queued = []
  | .suggestAssign i => s.Suits count i (s.session i).task.suggestion
  | .assign _ p => s.pieceWanted p = true ∧ p ∉ s.done
  | .select wanted => s.assigned.all ({ s with wanted } : Engine).pieceWanted = true
  | _ => True

instance decidableSensible (s : Engine) : (e : Event) → Decidable (s.Sensible count e)
  | .take i _ => inferInstanceAs (Decidable ((s.session i).task.target = none))
  | .haveNone i => inferInstanceAs (Decidable ((s.session i).queued = []))
  | .suggestAssign i => inferInstanceAs (Decidable (s.Suits count i (s.session i).task.suggestion))
  | .assign _ p => inferInstanceAs (Decidable (s.pieceWanted p = true ∧ p ∉ s.done))
  | .select wanted =>
    inferInstanceAs (Decidable (s.assigned.all ({ s with wanted } : Engine).pieceWanted = true))
  | .learn _ _ | .suggestPiece _ _ | .suggestRoom _ | .snapshot _ | .list _ | .giveUp _ | .push _
  | .piece _ _ | .incomplete _ | .accept _ _ | .unqueue _ | .unassign _ | .choke _
  | .chokeRelease _ | .kill _ | .release _ | .finish _ | .takeOwn _ _ => instDecidableTrue

variable {count}
variable {s : Engine} {i : Nat} {t : Task}

theorem Sensible.undisturbed {e : Event} (h : s.Sensible count e) : s.Undisturbed e := by
  cases e <;> first | exact h | exact trivial

/-- The invariant: the reservations are kept, and every session is good. -/
structure Wise (count : Nat) (s : Engine) : Prop where
  kept : s.Kept
  good : ∀ i, (s.session i).Good count s.done s.pieceWanted

theorem Wise.onlyUseful (h : s.Wise count) : s.OnlyUseful count where
  queued := fun i p hp => (h.good i).reserved p (.inl hp)
  receiving := fun i p hp => h.kept.target i p (by rw [hp]; rfl)

theorem good_modify {f : Session → Session} (h : ∀ k, (s.session k).Good count s.done s.pieceWanted)
    (hf : (f (s.session i)).Good count s.done s.pieceWanted) (k : Nat) :
    ((s.modify i f).session k).Good count s.done s.pieceWanted := by
  by_cases hk : k = i
  · subst hk
    rw [session_modify_self]
    exact hf
  · rw [session_modify_of_ne hk]
    exact h k

/-- A task at a known place, which is not the one after `accept_piece`. -/
theorem not_received {x : Session} (h : x.task = t) (ht : ∀ p, t ≠ .received p) (p : Nat) :
    x.task ≠ .received p := by
  rw [h]
  exact ht p

theorem good_goto (h : ∀ k, (s.session k).Good count s.done s.pieceWanted)
    (hfrom : ∀ p, (s.session i).task ≠ .received p) (ht : t.chooses = false) (k : Nat) :
    ((s.goto i t).session k).Good count s.done s.pieceWanted :=
  good_modify (f := fun x => { x with task := t }) h ((h i).goto hfrom ht) k

theorem good_takeQueue {j : Nat} (h : ∀ k, (s.session k).Good count s.done s.pieceWanted)
    (hi : ({ s.session i with task := t } : Session).Good count s.done s.pieceWanted)
    (ht : ∀ p, t ≠ .received p) (k : Nat) :
    ((s.takeQueue i j t).session k).Good count s.done s.pieceWanted :=
  good_modify (f := fun x => { x with live := false, queued := [], task := t }) h
    (hi.emptied false ht) k

/-- **Step.**  A sensible step keeps the invariant. -/
theorem Wise.step {s' : Engine} {e : Event} (h : s.Wise count) (hsensible : s.Sensible count e)
    (hstep : s.Step count e s') : s'.Wise count := by
  refine ⟨h.kept.step hsensible.undisturbed hstep, ?_⟩
  cases hstep with
  | suggestIgnored _ | pieceDropped _ => exact h.good
  | @learn i pieces hidle =>
    refine good_modify h.good ?_
    have hi := h.good i
    refine ⟨fun p hp => ?_, hi.snapped, fun c hc p hp => ?_⟩
    · obtain ⟨hlt, hwanted, hhave, hdone⟩ := hi.reserved p hp
      exact ⟨hlt, hwanted, List.mem_append_right _ hhave, hdone⟩
    · exact ⟨(hi.choosing c hc p hp).1, List.mem_append_right _ (hi.choosing c hc p hp).2⟩
  | @haveNone i hidle =>
    refine good_modify h.good ⟨?_, (h.good i).snapped, fun c hc => ?_⟩
    · rintro p (hp | hp)
      · rw [hsensible] at hp
        cases hp
      · rw [hidle] at hp
        cases hp
    · rw [hidle] at hc
      cases hc
  | @kill i =>
    have hi := h.good i
    exact good_modify h.good ⟨hi.reserved, hi.snapped, hi.choosing⟩
  | suggestPiece hidle _ | finish hidle | piece hidle _ =>
    exact good_goto h.good (not_received hidle fun _ ht => nomatch ht) rfl
  | suggestRoom hat | suggestNoRoom hat | suggestAssigned hat _ | giveUp hat _ | incomplete hat =>
    exact good_goto h.good (not_received hat fun _ ht => nomatch ht) rfl
  | unassign hat | chokeRelease hat =>
    exact good_goto h.good (not_received hat fun _ ht => nomatch ht) rfl
  | @snapshot i hidle =>
    have hi := (h.good i).goto (t := .idle) (not_received hidle fun _ ht => nomatch ht) rfl
    refine good_modify h.good ⟨fun p hp => ?_, fun m hm p hp => ?_, fun c hc => nomatch hc⟩
    · rcases hp with hp | hp
      · obtain ⟨hlt, hwanted, hhave, hdone⟩ := hi.reserved p (.inl hp)
        exact ⟨hlt, hwanted, hhave, .inl (hdone.resolve_right fun ht => nomatch ht)⟩
      · cases hp
    · cases hm
      exact List.mem_range.mp (List.mem_filter.mp hp).1
  | @list i missing hat =>
    have hi := (h.good i).goto (t := .idle) (not_received hat fun _ ht => nomatch ht) rfl
    refine good_modify h.good ⟨fun p hp => ?_, fun m hm => (nomatch hm), fun c hc p hp => ?_⟩
    · rcases hp with hp | hp
      · obtain ⟨hlt, hwanted, hhave, hdone⟩ := hi.reserved p (.inl hp)
        exact ⟨hlt, hwanted, hhave, .inl (hdone.resolve_right fun ht => nomatch ht)⟩
      · cases hp
    · cases hc
      obtain ⟨hp, hcand⟩ := List.mem_filter.mp hp
      exact ⟨(h.good i).snapped missing hat p hp, (of_decide_eq_true hcand).1⟩
  | @suggestAssign i p hat hfree =>
    have hsuits : s.Suits count i (s.session i).task.suggestion := hsensible
    rw [hat] at hsuits
    have hp := hsuits.resolve_left hfree
    exact good_modify (s := s) (f := fun x => { x with task := .reserved p }) h.good
      ((h.good i).reserve (not_received hat fun _ ht => nomatch ht) hp)
  | @assign i p candidates hat hmem hfree =>
    obtain ⟨hlt, hhave⟩ := (h.good i).choosing candidates hat p hmem
    exact good_modify (s := s) (f := fun x => { x with task := .reserved p }) h.good
      ((h.good i).reserve (not_received hat fun _ ht => nomatch ht)
        ⟨hlt, hsensible.1, hhave, hsensible.2⟩)
  | @push i p hat =>
    refine good_modify h.good ⟨fun q hq => ?_, fun m hm => (nomatch hm), fun c hc => nomatch hc⟩
    have hfrom := not_received hat (fun _ ht => nomatch ht)
    have hq' : q ∈ (s.session i).queued ∨ (s.session i).task = .reserved q := by
      rcases hq with hq | hq
      · rcases List.mem_append.mp hq with hq | hq
        · exact .inl hq
        · exact .inr (List.mem_singleton.mp hq ▸ hat)
      · cases hq
    obtain ⟨hlt, hwanted, hhave, -⟩ := (h.good i).reserved q hq'
    exact ⟨hlt, hwanted, hhave, .inl ((h.good i).missing hfrom hq')⟩
  | @accepted i p hat hmissing =>
    have htarget : p ∈ (s.session i).queued := h.kept.target i p (by rw [hat]; rfl)
    have hfrom := not_received hat (fun _ ht => nomatch ht)
    intro k
    have hk := h.good k
    by_cases hki : k = i
    · subst hki
      show Session.Good count (p :: s.done) s.pieceWanted
        ((s.modify k fun x => { x with task := .received p }).session k)
      rw [session_modify_self]
      refine ⟨fun q hq => ?_, fun m hm => (nomatch hm), fun c hc => nomatch hc⟩
      rcases hq with hq | hq
      · obtain ⟨hlt, hwanted, hhave, -⟩ := hk.reserved q (.inl hq)
        refine ⟨hlt, hwanted, hhave, ?_⟩
        by_cases hqp : q = p
        · exact .inr (hqp ▸ rfl)
        · exact .inl fun hin => (List.mem_cons.mp hin).elim hqp (hk.missing hfrom (.inl hq))
      · cases hq
    · show Session.Good count (p :: s.done) s.pieceWanted
        ((s.modify i fun x => { x with task := .received p }).session k)
      rw [session_modify_of_ne hki]
      refine ⟨fun q hq => ?_, hk.snapped, hk.choosing⟩
      obtain ⟨hlt, hwanted, hhave, hdone⟩ := hk.reserved q hq
      refine ⟨hlt, hwanted, hhave, hdone.imp_left fun hno hin => ?_⟩
      -- another session cannot have the piece: it is in the queue of this one
      rcases List.mem_cons.mp hin with rfl | hin
      · rcases hq with hq | hq
        · exact hki (Place.queue.inj (h.kept.custody.apart (.queue k) (.queue i) q hq htarget))
        · have hheld : q ∈ s.hold (.task k) := by
            show q ∈ (s.session k).task.held
            rw [hq]
            exact List.mem_singleton_self q
          cases h.kept.custody.apart (.task k) (.queue i) q hheld htarget
      · exact hno hin
  | @refused i p _ hat =>
    exact good_goto h.good (not_received hat fun _ ht => nomatch ht) rfl
  | @unqueue i p hat =>
    refine good_modify h.good ⟨fun q hq => ?_, fun m hm => (nomatch hm), fun c hc => nomatch hc⟩
    rcases hq with hq | hq
    · obtain ⟨hq, hne⟩ := List.mem_filter.mp hq
      obtain ⟨hlt, hwanted, hhave, hdone⟩ := (h.good i).reserved q (.inl hq)
      refine ⟨hlt, hwanted, hhave, .inl (hdone.resolve_right fun ht => ?_)⟩
      rw [hat] at ht
      exact of_decide_eq_true hne (Task.received.inj ht).symm
    · cases hq
  | @choke i hidle =>
    have hi := (h.good i).goto (t := .choked (s.session i).queued)
      (not_received hidle fun _ ht => nomatch ht) rfl
    exact good_modify h.good (hi.emptied (s.session i).live fun _ ht => nomatch ht)
  | @take i j hkilled hfree =>
    have hfrom : ∀ p, (s.session i).task ≠ .received p := by
      intro p ht
      have hnone : (s.session i).task.target = none := hsensible
      rw [ht] at hnone
      cases hnone
    exact good_takeQueue h.good (h.good i) hfrom
  | release => exact h.good
  | @takeOwn i j hat hfree =>
    have hi := (h.good i).goto (t := .over) (not_received hat fun _ ht => nomatch ht) rfl
    exact good_takeQueue h.good hi fun _ ht => nomatch ht
  | @select wanted =>
    intro k
    refine ⟨fun p hp => ?_, (h.good k).snapped, (h.good k).choosing⟩
    obtain ⟨hlt, -, hhave, hdone⟩ := (h.good k).reserved p hp
    refine ⟨hlt, List.all_eq_true.mp hsensible p ?_, hhave, hdone⟩
    rcases hp with hp | hp
    · exact h.kept.custody.mem_register (a := .queue k) hp
    · refine h.kept.custody.mem_register (a := .task k) ?_
      show p ∈ (s.session k).task.held
      rw [hp]
      exact List.mem_singleton_self p

/-- **Only useful pieces are reserved** in every state of a run along sensible steps. -/
theorem only_useful_reserved (count : Nat) {done : List Nat} {wanted : Option (List Nat)}
    {es : List Event} (h : Along (step count) (Sensible count) (start done wanted) es) :
    Everywhere (step count) (OnlyUseful count) (start done wanted) es :=
  everywhere_of_along (J := Wise count) (fun _ hs => hs.onlyUseful)
    (fun _ _ _ hs hP hstep => hs.step hP (step_inv hstep)) ⟨kept_start done wanted, fun _ => .new⟩ h

/-- A peer suggests a piece that it has and that is wanted; the piece is received and stored. -/
def suggestedRun : List Event :=
  [.learn 0 [0, 1], .suggestPiece 0 1, .suggestRoom 0, .suggestAssign 0, .push 0, .piece 0 1,
    .accept 0 true, .unqueue 0, .unassign 0, .haveNone 0]

theorem suggestedRun_useful :
    Everywhere (step 2) (OnlyUseful 2) (start [] (some [1])) suggestedRun :=
  only_useful_reserved 2 (by decide)

/-- A peer that has nothing suggests piece 7 of a torrent of two, and piece 0 of which no file is
selected. -/
def hostileRun : List Event :=
  [.suggestPiece 0 7, .suggestRoom 0, .suggestAssign 0, .push 0, .suggestPiece 0 0,
    .suggestRoom 0, .suggestAssign 0, .push 0]

/-- Both pieces are reserved; and a `HaveNone` leaves a queued piece that the peer does not have. -/
theorem hostileRun_reserved :
    (∃ s, run (step 2) (start [] (some [1])) hostileRun = some s ∧
      (s.session 0).queued = [7, 0] ∧ s.assigned = [0, 7] ∧ s.pieceWanted 0 = false) ∧
    (∃ s, run (step 2) (start [] none)
        [.learn 0 [0], .snapshot 0, .list 0, .assign 0 0, .push 0, .haveNone 0] = some s ∧
      (s.session 0).queued = [0] ∧ (s.session 0).have_ = []) ∧
    ¬ Everywhere (step 2) (OnlyUseful 2) (start [] (some [1])) hostileRun := by
  have hbad : ∃ s, run (step 2) (start [] (some [1])) hostileRun = some s ∧
      (s.session 0).queued = [7, 0] ∧ s.assigned = [0, 7] ∧ s.pieceWanted 0 = false :=
    ⟨_, rfl, by decide, by decide, by decide⟩
  refine ⟨hbad, ⟨_, rfl, by decide, by decide⟩, fun hall => ?_⟩
  obtain ⟨s, hrun, hqueued, -⟩ := hbad
  have huseful := hall hostileRun.length s (by rw [List.take_length]; exact hrun)
  have hlt := (huseful.queued 0 7 (by rw [hqueued]; exact List.mem_cons_self)).1
  exact absurd hlt (by decide)

end Engine

end XferRust.Swarm
