/-! # Loops that sleep and look again

A loop of this kind looks at a state, and either is done with it or sleeps before it looks
again.  Time is a number that the state is looked at with.  A sleep may last longer than it was
asked to, so two questions are apart: whether the loop ends whatever the timers do (`Ends`), and
whether there is any course of the timers at all on which it ends (`MayEnd`).
-/
namespace Waiting

variable {σ : Type}

/-- What one look at the state leads to. -/
inductive Poll (σ : Type) where
  | done (s : σ)
  /-- The loop sleeps for the time given, or longer. -/
  | sleep (s : σ) (time : Nat)

variable (poll : σ → Nat → Poll σ)

/-- The loop ends from a state and a time, however long each sleep lasts. -/
inductive Ends : σ → Nat → Prop where
  | done {s s' : σ} {now : Nat} (h : poll s now = .done s') : Ends s now
  | sleep {s s' : σ} {now time : Nat} (h : poll s now = .sleep s' time)
      (hrest : ∀ late, Ends s' (now + time + late)) : Ends s now

/-- Some course of the sleeps leads the loop to its end. -/
inductive MayEnd : σ → Nat → Prop where
  | done {s s' : σ} {now : Nat} (h : poll s now = .done s') : MayEnd s now
  | sleep {s s' : σ} {now time late : Nat} (h : poll s now = .sleep s' time)
      (hrest : MayEnd s' (now + time + late)) : MayEnd s now

variable {poll}

theorem Ends.mayEnd {s : σ} {now : Nat} (h : Ends poll s now) : MayEnd poll s now := by
  induction h with
  | done h => exact .done h
  | sleep h _ ih => exact .sleep h (ih 0)

/-- **Measure rule.**  Where each look that is not the last makes a number smaller, whatever the
sleep behind it lasts, the loop ends. -/
theorem ends_of_measure {I : σ → Nat → Prop} (μ : σ → Nat → Nat)
    (hpoll : ∀ s now, I s now → ∀ s' time, poll s now = .sleep s' time →
      ∀ late, I s' (now + time + late) ∧ μ s' (now + time + late) < μ s now)
    {s : σ} {now : Nat} (hI : I s now) : Ends poll s now := by
  induction hn : μ s now using Nat.strongRecOn generalizing s now with
  | ind n ih =>
    cases hp : poll s now with
    | done s' => exact .done hp
    | sleep s' time =>
      refine .sleep hp fun late => ?_
      obtain ⟨hI', hlt⟩ := hpoll s now hI s' time hp late
      exact ih _ (hn ▸ hlt) hI' rfl

/-- **Starving rule.**  Where every look is followed by a sleep, and some length of it leads back
into the invariant, the loop need not end. -/
theorem not_ends_of_invariant {I : σ → Nat → Prop}
    (hpoll : ∀ s now, I s now →
      ∃ s' time, poll s now = .sleep s' time ∧ ∃ late, I s' (now + time + late))
    {s : σ} {now : Nat} (hI : I s now) : ¬ Ends poll s now := by
  intro h
  induction h with
  | done h =>
    obtain ⟨s', time, hs, -⟩ := hpoll _ _ hI
    rw [h] at hs
    cases hs
  | sleep h _ ih =>
    obtain ⟨s', time, hs, late, hI'⟩ := hpoll _ _ hI
    rw [h] at hs
    cases hs
    exact ih late hI'

/-- Where every look is followed by a sleep, no course of the timers ends the loop. -/
theorem not_mayEnd_of_sleeps (hpoll : ∀ s now, ∃ s' time, poll s now = .sleep s' time) (s : σ)
    (now : Nat) : ¬ MayEnd poll s now := by
  intro h
  induction h with
  | @done s s' now h =>
    obtain ⟨t, time, hs⟩ := hpoll s now
    rw [h] at hs
    cases hs
  | sleep _ _ ih => exact ih

end Waiting
