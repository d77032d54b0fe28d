import XferRust.Swarm.Reservations

/-! # What a step of the reservations can do

`Step` lists the branches of `step`, each with what was checked under the lock and what it
leaves (`step_inv`).  All that is proved of the runs goes by cases on it.
-/
namespace XferRust.Swarm

namespace Engine

variable (count : Nat)

/-- The branches of `step`. -/
inductive Step (s : Engine) : Event → Engine → Prop where
  | learn {i : Nat} {pieces : List Nat} (idle : (s.session i).task = .idle) :
      Step s (.learn i pieces)
        (s.modify i fun x => { x with have_ := pieces.filter (· < count) ++ x.have_ })
  | haveNone {i : Nat} (idle : (s.session i).task = .idle) :
      Step s (.haveNone i) (s.modify i fun x => { x with have_ := [] })
  | suggestPiece {i p : Nat} (idle : (s.session i).task = .idle) (missing : p ∉ s.done) :
      Step s (.suggestPiece i p) (s.goto i (.suggested p))
  | suggestIgnored {i p : Nat} (idle : (s.session i).task = .idle) : Step s (.suggestPiece i p) s
  | suggestRoom {i p : Nat} (at_ : (s.session i).task = .suggested p) :
      Step s (.suggestRoom i) (s.goto i (.roomy p))
  | suggestNoRoom {i p : Nat} (at_ : (s.session i).task = .suggested p) :
      Step s (.suggestRoom i) (s.goto i .idle)
  | suggestAssign {i p : Nat} (at_ : (s.session i).task = .roomy p) (free : p ∉ s.assigned) :
      Step s (.suggestAssign i) { s.goto i (.reserved p) with assigned := p :: s.assigned }
  | suggestAssigned {i p : Nat} (at_ : (s.session i).task = .roomy p) (busy : p ∈ s.assigned) :
      Step s (.suggestAssign i) (s.goto i .idle)
  | snapshot {i : Nat} (idle : (s.session i).task = .idle) :
      Step s (.snapshot i) (s.goto i (.snapped ((List.range count).filter (· ∉ s.done))))
  | list {i : Nat} {missing : List Nat} (at_ : (s.session i).task = .snapped missing) :
      Step s (.list i) (s.goto i (.choosing
        (missing.filter fun p => p ∈ (s.session i).have_ ∧ s.pieceWanted p)))
  | assign {i p : Nat} {candidates : List Nat} (at_ : (s.session i).task = .choosing candidates)
      (mem : p ∈ candidates) (free : p ∉ s.assigned) :
      Step s (.assign i p) { s.goto i (.reserved p) with assigned := p :: s.assigned }
  | giveUp {i : Nat} {candidates : List Nat} (at_ : (s.session i).task = .choosing candidates)
      (busy : ∀ p ∈ candidates, p ∈ s.assigned) : Step s (.giveUp i) (s.goto i .idle)
  | push {i p : Nat} (at_ : (s.session i).task = .reserved p) :
      Step s (.push i)
        (s.modify i fun x => { x with queued := x.queued ++ [p], task := .idle })
  | piece {i p : Nat} (idle : (s.session i).task = .idle) (mem : p ∈ (s.session i).queued) :
      Step s (.piece i p) (s.goto i (.receiving p))
  | pieceDropped {i p : Nat} (idle : (s.session i).task = .idle) : Step s (.piece i p) s
  | incomplete {i p : Nat} (at_ : (s.session i).task = .receiving p) :
      Step s (.incomplete i) (s.goto i .idle)
  | accepted {i p : Nat} (at_ : (s.session i).task = .receiving p) (missing : p ∉ s.done) :
      Step s (.accept i true) { s.goto i (.received p) with done := p :: s.done }
  | refused {i p : Nat} {stored : Bool} (at_ : (s.session i).task = .receiving p) :
      Step s (.accept i stored) (s.goto i (.received p))
  | unqueue {i p : Nat} (at_ : (s.session i).task = .received p) :
      Step s (.unqueue i) (s.modify i fun x =>
        { x with queued := x.queued.filter (· ≠ p), task := .unqueued p })
  | unassign {i p : Nat} (at_ : (s.session i).task = .unqueued p) :
      Step s (.unassign i) { s.goto i .idle with assigned := s.assigned.filter (· ≠ p) }
  | choke {i : Nat} (idle : (s.session i).task = .idle) :
      Step s (.choke i) (s.modify i fun x => { x with queued := [], task := .choked x.queued })
  | chokeRelease {i : Nat} {taken : List Nat} (at_ : (s.session i).task = .choked taken) :
      Step s (.chokeRelease i) { s.goto i .idle with assigned := s.assigned.filter (· ∉ taken) }
  | kill {i : Nat} : Step s (.kill i) (s.modify i fun x => { x with live := false })
  | take {i j : Nat} (killed : (s.session i).live = false) (free : s.evictor j = []) :
      Step s (.take i j) (s.takeQueue i j (s.session i).task)
  | release {j : Nat} :
      Step s (.release j)
        { s with
          assigned := s.assigned.filter (· ∉ s.evictor j)
          evictor := Function.update s.evictor j [] }
  | finish {i : Nat} (idle : (s.session i).task = .idle) :
      Step s (.finish i) (s.goto i .ending)
  | takeOwn {i j : Nat} (at_ : (s.session i).task = .ending) (free : s.evictor j = []) :
      Step s (.takeOwn i j) (s.takeQueue i j .over)
  | select {wanted : Option (List Nat)} : Step s (.select wanted) { s with wanted }

variable {count}

/-- A branch that asks for an idle task. -/
theorem of_idle {t : Task} {o : Option Engine} {s' : Engine}
    (h : (if t = .idle then o else none) = some s') : t = .idle ∧ o = some s' := by
  split at h
  · exact ⟨‹_›, h⟩
  · cases h

/-- **Inversion.** -/
theorem step_inv {s s' : Engine} {e : Event} (h : s.step count e = some s') : s.Step count e s' := by
  cases e with
  | learn i pieces =>
    obtain ⟨hi, h⟩ := of_idle h
    cases h
    exact .learn hi
  | haveNone i =>
    obtain ⟨hi, h⟩ := of_idle h
    cases h
    exact .haveNone hi
  | suggestPiece i p =>
    obtain ⟨hi, h⟩ := of_idle h
    split at h
    · rename_i hmissing
      cases h
      exact .suggestPiece hi hmissing.2
    · cases h
      exact .suggestIgnored hi
  | suggestRoom i =>
    dsimp only [step] at h
    split at h
    · rename_i p hp
      split at h
      · cases h
        exact .suggestRoom hp
      · cases h
        exact .suggestNoRoom hp
    · cases h
  | suggestAssign i =>
    dsimp only [step] at h
    split at h
    · rename_i p hp
      split at h
      · rename_i hbusy
        cases h
        exact .suggestAssigned hp hbusy
      · rename_i hfree
        cases h
        exact .suggestAssign hp hfree
    · cases h
  | snapshot i =>
    obtain ⟨hi, h⟩ := of_idle h
    cases h
    exact .snapshot hi
  | list i =>
    dsimp only [step] at h
    split at h
    · rename_i missing hm
      cases h
      exact .list hm
    · cases h
  | assign i p =>
    dsimp only [step] at h
    split at h
    · rename_i candidates hc
      split at h
      · rename_i hfree
        cases h
        exact .assign hc hfree.1 hfree.2
      · cases h
    · cases h
  | giveUp i =>
    dsimp only [step] at h
    split at h
    · rename_i candidates hc
      split at h
      · rename_i hbusy
        cases h
        exact .giveUp hc hbusy
      · cases h
    · cases h
  | push i =>
    dsimp only [step] at h
    split at h
    · rename_i p hp
      cases h
      exact .push hp
    · cases h
  | piece i p =>
    obtain ⟨hi, h⟩ := of_idle h
    split at h
    · rename_i hmem
      cases h
      exact .piece hi hmem
    · cases h
      exact .pieceDropped hi
  | incomplete i =>
    dsimp only [step] at h
    split at h
    · rename_i p hp
      cases h
      exact .incomplete hp
    · cases h
  | accept i stored =>
    dsimp only [step] at h
    split at h
    · rename_i p hp
      split at h
      · rename_i hok
        cases h
        obtain ⟨rfl, hmissing⟩ := hok
        exact .accepted hp hmissing
      · cases h
        exact .refused hp
    · cases h
  | unqueue i =>
    dsimp only [step] at h
    split at h
    · rename_i p hp
      cases h
      exact .unqueue hp
    · cases h
  | unassign i =>
    dsimp only [step] at h
    split at h
    · rename_i p hp
      cases h
      exact .unassign hp
    · cases h
  | choke i =>
    obtain ⟨hi, h⟩ := of_idle h
    cases h
    exact .choke hi
  | chokeRelease i =>
    dsimp only [step] at h
    split at h
    · rename_i taken ht
      cases h
      exact .chokeRelease ht
    · cases h
  | kill i =>
    cases h
    exact .kill
  | take i j =>
    dsimp only [step] at h
    split at h
    · rename_i hk
      cases h
      exact .take hk.1 hk.2
    · cases h
  | release j =>
    cases h
    exact .release
  | finish i =>
    obtain ⟨hi, h⟩ := of_idle h
    cases h
    exact .finish hi
  | takeOwn i j =>
    dsimp only [step] at h
    split at h
    · rename_i hk
      cases h
      exact .takeOwn hk.1 hk.2
    · cases h
  | select wanted =>
    cases h
    exact .select

end Engine

end XferRust.Swarm
