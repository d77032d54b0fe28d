/-! # Runs of a partial step function

A system is given by a step function `step : σ → ε → Option σ`: `none` means that the
event is not enabled.  A run is the list of its events, and the state it reaches is
computed.  The two induction rules of this module are the only ones the systems built on
it need: what one step keeps, a run keeps (`run_invariant`), also when the steps are only
required to keep it under a condition on the state before the step (`Along`).
-/
namespace StepRun

variable {σ ε : Type} (step : σ → ε → Option σ)

/-- The state a list of events leads to, if every event is enabled when it comes. -/
def run : σ → List ε → Option σ
  | s, [] => some s
  | s, e :: es => (step s e).bind fun s' => run s' es

/-- `P` holds of every step of the run: of each event with the state it meets. -/
def Along (P : σ → ε → Prop) : σ → List ε → Prop
  | _, [] => True
  | s, e :: es => P s e ∧ ∀ s', step s e = some s' → Along P s' es

instance decidableAlong (P : σ → ε → Prop) [∀ s e, Decidable (P s e)] :
    ∀ (s : σ) (es : List ε), Decidable (Along step P s es)
  | _, [] => isTrue trivial
  | s, e :: es =>
    match h : step s e with
    | none => decidable_of_iff (P s e) (by simp [Along, h])
    | some s' =>
      have := decidableAlong P s' es
      decidable_of_iff (P s e ∧ Along step P s' es) (by simp [Along, h])

@[simp] theorem run_nil (s : σ) : run step s [] = some s := rfl

theorem run_cons (s : σ) (e : ε) (es : List ε) :
    run step s (e :: es) = (step s e).bind fun s' => run step s' es := rfl

variable {step}

theorem run_cons_eq_some {s t : σ} {e : ε} {es : List ε} :
    run step s (e :: es) = some t ↔ ∃ s', step s e = some s' ∧ run step s' es = some t := by
  rw [run_cons, Option.bind_eq_some_iff]

theorem run_append {s t : σ} {es fs : List ε} :
    run step s (es ++ fs) = some t ↔
      ∃ s', run step s es = some s' ∧ run step s' fs = some t := by
  induction es generalizing s with
  | nil => simp
  | cons e es ih =>
    rw [List.cons_append, run_cons_eq_some]
    constructor
    · rintro ⟨s', he, hr⟩
      obtain ⟨u, hu, ht⟩ := ih.mp hr
      exact ⟨u, run_cons_eq_some.mpr ⟨s', he, hu⟩, ht⟩
    · rintro ⟨u, hu, ht⟩
      obtain ⟨s', he, hr⟩ := run_cons_eq_some.mp hu
      exact ⟨s', he, ih.mpr ⟨u, hr, ht⟩⟩

/-- A run gets through exactly if every step is enabled where it comes. -/
theorem run_isSome_iff {P : σ → ε → Prop} (h : ∀ s e, (step s e).isSome = true ↔ P s e) {s : σ}
    {es : List ε} : (run step s es).isSome = true ↔ Along step P s es := by
  induction es generalizing s with
  | nil => exact iff_of_true rfl trivial
  | cons e es ih =>
    rw [run_cons]
    constructor
    · intro hrun
      obtain ⟨t, ht⟩ := Option.isSome_iff_exists.mp hrun
      obtain ⟨s', he, -⟩ := Option.bind_eq_some_iff.mp ht
      rw [he, Option.bind_some] at hrun
      refine ⟨(h s e).mp (he ▸ rfl), fun u hu => ?_⟩
      obtain rfl : s' = u := Option.some.inj (he.symm.trans hu)
      exact ih.mp hrun
    · rintro ⟨hP, hes⟩
      obtain ⟨s', he⟩ := Option.isSome_iff_exists.mp ((h s e).mpr hP)
      rw [he, Option.bind_some]
      exact ih.mpr (hes s' he)

/-- **Run rule.**  What every step that meets `P` keeps, every run along `P` keeps. -/
theorem run_invariant {I : σ → Prop} {P : σ → ε → Prop}
    (hstep : ∀ s e s', I s → P s e → step s e = some s' → I s')
    {s t : σ} {es : List ε} (hs : I s) (hP : Along step P s es)
    (hrun : run step s es = some t) : I t := by
  induction es generalizing s with
  | nil => exact Option.some.inj hrun ▸ hs
  | cons e es ih =>
    obtain ⟨s', he, hr⟩ := run_cons_eq_some.mp hrun
    exact ih (hstep s e s' hs hP.1 he) (hP.2 s' he) hr

/-- **End rule.**  When a step leads to a state with `I` exactly along `P`, and never back to one,
then a run ends in a state with `I` exactly if it goes along `P`. -/
theorem exists_run_iff_along {I J : σ → Prop} {P : σ → ε → Prop}
    (hkeep : ∀ s e s', J s → step s e = some s' → J s')
    (hback : ∀ s e s', J s → step s e = some s' → I s' → I s)
    (hstep : ∀ s e, J s → I s → ((∃ s', step s e = some s' ∧ I s') ↔ P s e))
    {s : σ} {es : List ε} (hs : J s) :
    (∃ t, run step s es = some t ∧ I t) ↔ I s ∧ Along step P s es := by
  induction es generalizing s with
  | nil =>
    constructor
    · rintro ⟨t, ht, hI⟩
      exact ⟨Option.some.inj ht ▸ hI, trivial⟩
    · rintro ⟨hI, -⟩
      exact ⟨s, rfl, hI⟩
  | cons e es ih =>
    constructor
    · rintro ⟨t, ht, hI⟩
      obtain ⟨s', he, hr⟩ := run_cons_eq_some.mp ht
      obtain ⟨hI', hes⟩ := (ih (hkeep s e s' hs he)).mp ⟨t, hr, hI⟩
      have hIs := hback s e s' hs he hI'
      refine ⟨hIs, (hstep s e hs hIs).mp ⟨s', he, hI'⟩, fun u hu => ?_⟩
      obtain rfl : s' = u := Option.some.inj (he.symm.trans hu)
      exact hes
    · rintro ⟨hIs, hP, hes⟩
      obtain ⟨s', he, hI'⟩ := (hstep s e hs hIs).mpr hP
      obtain ⟨t, hr, hI⟩ := (ih (hkeep s e s' hs he)).mpr ⟨hI', hes s' he⟩
      exact ⟨t, run_cons_eq_some.mpr ⟨s', he, hr⟩, hI⟩

/-- `I` holds of every state of the run, the first one included. -/
def Everywhere (step : σ → ε → Option σ) (I : σ → Prop) (s : σ) (es : List ε) : Prop :=
  ∀ n u, run step s (es.take n) = some u → I u

theorem everywhere_nil {I : σ → Prop} {s : σ} : Everywhere step I s [] ↔ I s := by
  constructor
  · intro h
    exact h 0 s rfl
  · intro h n u hu
    rw [List.take_nil] at hu
    exact Option.some.inj hu ▸ h

theorem everywhere_cons {I : σ → Prop} {s s' : σ} {e : ε} {es : List ε}
    (he : step s e = some s') :
    Everywhere step I s (e :: es) ↔ I s ∧ Everywhere step I s' es := by
  constructor
  · intro h
    refine ⟨h 0 s rfl, fun n u hu => h (n + 1) u ?_⟩
    rw [List.take_succ_cons, run_cons, he]
    exact hu
  · rintro ⟨hs, h⟩ n u hu
    cases n with
    | zero => exact Option.some.inj hu ▸ hs
    | succ n =>
      rw [List.take_succ_cons, run_cons, he] at hu
      exact h n u hu

/-- **State rule.**  What follows from an invariant that every step along `P` keeps holds of every
state of a run along `P`. -/
theorem everywhere_of_along {I J : σ → Prop} {P : σ → ε → Prop} (hJ : ∀ s, J s → I s)
    (hkeep : ∀ s e s', J s → P s e → step s e = some s' → J s') {s : σ} {es : List ε}
    (hs : J s) (hP : Along step P s es) : Everywhere step I s es := by
  induction es generalizing s with
  | nil => exact everywhere_nil.mpr (hJ s hs)
  | cons e es ih =>
    intro n u hu
    cases n with
    | zero => exact Option.some.inj hu ▸ hJ s hs
    | succ n =>
      rw [List.take_succ_cons] at hu
      obtain ⟨s', he, hr⟩ := run_cons_eq_some.mp hu
      exact ih (hkeep s e s' hs hP.1 he) (hP.2 s' he) n u hr

/-- **Exact run rule.**  When every step along `P` keeps the invariant `J` behind `I`, and every
other step leads to a state without `I`, then `I` holds of every state of a run if and only if
the run goes along `P`. -/
theorem everywhere_iff_along {I J : σ → Prop} {P : σ → ε → Prop} (hJ : ∀ s, J s → I s)
    (hkeep : ∀ s e s', J s → P s e → step s e = some s' → J s')
    (hbreak : ∀ s e s', J s → ¬ P s e → step s e = some s' → ¬ I s')
    {s t : σ} {es : List ε} (hs : J s) (hrun : run step s es = some t) :
    Everywhere step I s es ↔ Along step P s es := by
  induction es generalizing s with
  | nil => exact ⟨fun _ => trivial, fun _ => everywhere_nil.mpr (hJ s hs)⟩
  | cons e es ih =>
    obtain ⟨s', he, hr⟩ := run_cons_eq_some.mp hrun
    rw [everywhere_cons he]
    constructor
    · rintro ⟨-, h⟩
      have hP : P s e := Classical.byContradiction fun hn =>
        hbreak s e s' hs hn he (h 0 s' rfl)
      refine ⟨hP, fun u hu => ?_⟩
      obtain rfl : s' = u := Option.some.inj (he.symm.trans hu)
      exact (ih (hkeep s e s' hs hP he) hr).mp h
    · rintro ⟨hP, h⟩
      exact ⟨hJ s hs, (ih (hkeep s e s' hs hP he) hr).mpr (h s' he)⟩

theorem Along.and {P Q : σ → ε → Prop} {s : σ} {es : List ε} (hP : Along step P s es)
    (hQ : Along step Q s es) : Along step (fun s e => P s e ∧ Q s e) s es := by
  induction es generalizing s with
  | nil => trivial
  | cons e es ih =>
    exact ⟨⟨hP.1, hQ.1⟩, fun s' he => ih (hP.2 s' he) (hQ.2 s' he)⟩

theorem Along.mono {P Q : σ → ε → Prop} (hPQ : ∀ s e, P s e → Q s e) {s : σ} {es : List ε}
    (h : Along step P s es) : Along step Q s es := by
  induction es generalizing s with
  | nil => trivial
  | cons e es ih => exact ⟨hPQ s e h.1, fun s' he => ih (h.2 s' he)⟩

/-- What holds along a run holds of the event behind any part of it, in the state reached there. -/
theorem Along.at_run {P : σ → ε → Prop} {s t : σ} {es fs : List ε} {e : ε}
    (h : Along step P s (es ++ e :: fs)) (hrun : run step s es = some t) : P t e := by
  induction es generalizing s with
  | nil =>
    obtain rfl : s = t := Option.some.inj hrun
    exact h.1
  | cons d es ih =>
    obtain ⟨s', hd, hr⟩ := run_cons_eq_some.mp hrun
    exact ih (h.2 s' hd) hr

/-- **Step rule.**  Where every step along `P` keeps the invariant `J` and has the property `Q`, a
run along `P` has the property at each of its steps. -/
theorem along_of_along {J : σ → Prop} {P Q : σ → ε → Prop} (hQ : ∀ s e, J s → P s e → Q s e)
    (hkeep : ∀ s e s', J s → P s e → step s e = some s' → J s') {s : σ} {es : List ε}
    (hs : J s) (hP : Along step P s es) : Along step Q s es := by
  induction es generalizing s with
  | nil => trivial
  | cons e es ih =>
    exact ⟨hQ s e hs hP.1, fun s' he => ih (hkeep s e s' hs hP.1 he) (hP.2 s' he)⟩

/-- A condition that reads only the events holds along a run when it holds of each event. -/
theorem along_of_forall {Q : ε → Prop} {s : σ} {es : List ε} (h : ∀ e ∈ es, Q e) :
    Along step (fun _ e => Q e) s es := by
  induction es generalizing s with
  | nil => trivial
  | cons e es ih =>
    exact ⟨h e List.mem_cons_self, fun s' _ => ih fun e' he' => h e' (List.mem_cons_of_mem e he')⟩

end StepRun
