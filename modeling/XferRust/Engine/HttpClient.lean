import XferRust.Lib.StepRun

/-! # The HTTP client and the options it is built from

`rebuild_http_client` claims the values of the options, raises a flag and builds the client in a
thread of its own; the thread replaces the client and takes the flag down.  Calls and threads
interleave at will.  There is one flag for all threads, and the values are claimed before the client
is built: so a thread that comes late, or one whose build fails, can leave the wrong client for
good, and one that ends early takes the flag of another down.

Where neither happens, the client follows the options: `follows_of_clear_run`.
-/
namespace XferRust.Engine.HttpClient
open StepRun

/-- `user-agent`, `all-proxy` and `no-proxy`. -/
structure ClientOptions where
  userAgent : Option String
  allProxy : Option String
  noProxy : Option String
  deriving DecidableEq

/-- How far a call of `rebuild_http_client`, and then its thread, has come. -/
inductive Stage where
  /-- The options are read. -/
  | called
  /-- The values are claimed. -/
  | claimed
  /-- The flag is up, and the thread runs. -/
  | building
  | built
  /-- The client is replaced; the guard is still there. -/
  | replaced
  /-- The build has panicked; the guard is still there. -/
  | failed
  | ended
  deriving DecidableEq

structure Rebuild where
  sig : ClientOptions
  stage : Stage

/-- What the manager has of it, and all calls there have been.  A client is known by the values that
it was built from. -/
structure Manager where
  options : ClientOptions
  clientSig : Option ClientOptions
  client : ClientOptions
  clientBusy : Bool
  rebuilds : List Rebuild

inductive Act where
  | claim
  | raise
  | build (ok : Bool)
  | replace
  /-- The guard is dropped. -/
  | finish

inductive Event where
  /-- The options are changed. -/
  | configure (options : ClientOptions)
  /-- `rebuild_http_client` is called. -/
  | rebuild
  | act (i : Nat) (a : Act)
  /-- `wait_client_ready` returns. -/
  | ready

/-- What a call or its thread does next. -/
def Rebuild.step (r : Rebuild) (m : Manager) : Act → Option (Manager × Stage)
  | .claim =>
    match r.stage with
    | .called =>
      if m.clientSig = some r.sig then some (m, .ended)
      else some ({ m with clientSig := some r.sig }, .claimed)
    | _ => none
  | .raise =>
    match r.stage with
    | .claimed => some ({ m with clientBusy := true }, .building)
    | _ => none
  | .build ok =>
    match r.stage with
    | .building => some (m, if ok then .built else .failed)
    | _ => none
  | .replace =>
    match r.stage with
    | .built => some ({ m with client := r.sig }, .replaced)
    | _ => none
  | .finish =>
    match r.stage with
    | .replaced => some ({ m with clientBusy := false }, .ended)
    | .failed => some ({ m with clientBusy := false }, .ended)
    | _ => none

/-- The manager with the new stage of call `i`. -/
def Manager.moved (i : Nat) (r : Rebuild) (p : Manager × Stage) : Manager :=
  { p.1 with rebuilds := p.1.rebuilds.set i { r with stage := p.2 } }

def Manager.step (m : Manager) : Event → Option Manager
  | .configure options => some { m with options }
  | .rebuild => some { m with
      rebuilds := m.rebuilds ++ [{ sig := m.options, stage := .called }] }
  | .act i a => (m.rebuilds[i]?).bind fun r => (r.step m a).map (Manager.moved i r)
  | .ready => if m.clientBusy then none else some m

/-- A new manager: its client is built from no values, and no values are claimed. -/
def Manager.new (options : ClientOptions) : Manager :=
  { options, clientSig := none, client := ⟨none, none, none⟩, clientBusy := false, rebuilds := [] }

/-! ## What should hold -/

/-- The client of these values is still to come. -/
def Stage.Pending (s : Stage) : Prop := s = .claimed ∨ s = .building ∨ s = .built

/-- The thread runs. -/
def Stage.Running (s : Stage) : Prop :=
  s = .building ∨ s = .built ∨ s = .replaced ∨ s = .failed

instance decidablePending (s : Stage) : Decidable s.Pending :=
  inferInstanceAs (Decidable (_ ∨ _))

instance decidableRunning (s : Stage) : Decidable s.Running :=
  inferInstanceAs (Decidable (_ ∨ _))

/-- **The client follows the options**: when all calls and threads have ended, it is built from
them, or the next call rebuilds it. -/
def Manager.Follows (m : Manager) : Prop :=
  (∀ r ∈ m.rebuilds, r.stage = .ended) →
    m.client = m.options ∨ m.clientSig ≠ some m.options

/-- `wait_client_ready` returns only when there is no rebuild, be it claimed or running. -/
def WaitsFor (m : Manager) (e : Event) : Prop :=
  e = .ready → ∀ r ∈ m.rebuilds, r.stage ≠ .claimed ∧ ¬r.stage.Running

/-! ## Runs in which it does -/

/-- The client of the values that were claimed last is still to come from another rebuild. -/
def Manager.Awaited (m : Manager) (i : Nat) : Prop :=
  ∃ j, j < m.rebuilds.length ∧ j ≠ i ∧ ∃ q ∈ m.rebuilds[j]?, q.stage.Pending ∧
    m.clientSig = some q.sig

/-- A rebuild replaces the client only by the one that is wanted, or while that one is still to
come; a build fails only where that leaves the client that is wanted, or while that one is still to
come; and a thread ends only when no other one runs. -/
def Rebuild.Clear (r : Rebuild) (m : Manager) (i : Nat) : Act → Prop
  | .replace => m.clientSig = some r.sig ∨ m.Awaited i
  | .build false => m.clientSig = some m.client ∨ m.Awaited i
  | .finish => ∀ j, j < m.rebuilds.length → j ≠ i → ∀ q ∈ m.rebuilds[j]?, ¬q.stage.Running
  | _ => True

/-- The steps of rebuilds are clear, and nobody stops waiting between a claim and the flag. -/
def Clear (m : Manager) : Event → Prop
  | .configure _ => True
  | .rebuild => True
  | .act i a => ∀ r ∈ m.rebuilds[i]?, r.Clear m i a
  | .ready => ∀ r ∈ m.rebuilds, r.stage ≠ .claimed

/-- What each step keeps. -/
structure Manager.Sound (m : Manager) : Prop where
  /-- The client is the one that is wanted, or that one is still to come. -/
  wanted : ∀ sig, m.clientSig = some sig → m.client = sig ∨
    ∃ (j : Nat) (q : Rebuild), m.rebuilds[j]? = some q ∧ q.stage.Pending ∧ q.sig = sig
  busy : m.clientBusy = false →
    ∀ (j : Nat) (q : Rebuild), m.rebuilds[j]? = some q → ¬q.stage.Running

variable {m m' : Manager} {i : Nat} {r : Rebuild}

theorem Manager.Sound.follows (h : m.Sound) : m.Follows := by
  intro hended
  by_cases hsig : m.clientSig = some m.options
  · refine .inl ((h.wanted m.options hsig).resolve_right ?_)
    rintro ⟨j, q, hq, hpending, -⟩
    rw [hended q (List.mem_of_getElem? hq)] at hpending
    rcases hpending with h | h | h
    · cases h
    · cases h
    · cases h
  · exact .inr hsig

theorem step_ready (h : m.step .ready = some m') : m.clientBusy = false ∧ m' = m := by
  dsimp only [Manager.step] at h
  split at h
  · cases h
  · rename_i hbusy
    exact ⟨Bool.eq_false_iff.mpr hbusy, (Option.some.inj h).symm⟩

theorem Manager.Sound.waitsFor (h : m.Sound) {e : Event} (hclear : Clear m e)
    (hs : m.step e = some m') : WaitsFor m e := by
  rintro rfl r hr
  obtain ⟨j, hj⟩ := List.getElem?_of_mem hr
  exact ⟨hclear r hr, h.busy (step_ready hs).1 j r hj⟩

theorem Manager.Awaited.exists (h : m.Awaited i) {sig : ClientOptions}
    (hsig : m.clientSig = some sig) : ∃ (j : Nat) (q : Rebuild), j ≠ i ∧
      m.rebuilds[j]? = some q ∧ q.stage.Pending ∧ q.sig = sig := by
  obtain ⟨j, -, hne, q, hq, hpending, hqsig⟩ := h
  exact ⟨j, q, hne, hq, hpending, Option.some.inj (hqsig.symm.trans hsig)⟩

/-- One rebuild has another stage: what has to be shown of the others and of it. -/
theorem Manager.Sound.moved {stage : Stage} (hr : m.rebuilds[i]? = some r)
    (hsame : m'.rebuilds = m.rebuilds) (hwanted : ∀ sig, m'.clientSig = some sig → m'.client = sig ∨
      (∃ (j : Nat) (q : Rebuild), j ≠ i ∧ m.rebuilds[j]? = some q ∧ q.stage.Pending ∧ q.sig = sig) ∨
      (stage.Pending ∧ r.sig = sig)) (hbusy : m'.clientBusy = false → ¬stage.Running ∧
      ∀ (j : Nat) (q : Rebuild), j ≠ i → m.rebuilds[j]? = some q → ¬q.stage.Running) :
    (Manager.moved i r (m', stage)).Sound := by
  have hlt := (List.getElem?_eq_some_iff.mp hr).1
  have hself : (m'.rebuilds.set i { r with stage })[i]? = some { r with stage } := by
    rw [hsame, List.getElem?_set_self hlt]
  have hother : ∀ j, j ≠ i → (m'.rebuilds.set i { r with stage })[j]? = m.rebuilds[j]? := by
    intro j hne
    rw [hsame, List.getElem?_set_ne hne.symm]
  refine ⟨fun sig hsig => ?_, fun hnot j q hq => ?_⟩
  · rcases hwanted sig hsig with hclient | ⟨j, q, hne, hq, hpending, hqsig⟩ | ⟨hpending, hrsig⟩
    · exact .inl hclient
    · exact .inr ⟨j, q, (hother j hne).trans hq, hpending, hqsig⟩
    · exact .inr ⟨i, { r with stage }, hself, hpending, hrsig⟩
  · obtain ⟨hstage, hrest⟩ := hbusy hnot
    change (m'.rebuilds.set i { r with stage })[j]? = some q at hq
    by_cases hne : j = i
    · subst hne
      obtain rfl := Option.some.inj (hself.symm.trans hq)
      exact hstage
    · exact hrest j q hne ((hother j hne).symm.trans hq)

/-- Where the wanted client is to come from a rebuild of another stage, it is from another one. -/
theorem Manager.Sound.others (h : m.Sound) (hr : m.rebuilds[i]? = some r) {sig : ClientOptions}
    (hsig : m.clientSig = some sig) :
    m.client = sig ∨
      (∃ (j : Nat) (q : Rebuild), j ≠ i ∧ m.rebuilds[j]? = some q ∧ q.stage.Pending ∧ q.sig = sig) ∨
      (r.stage.Pending ∧ r.sig = sig) := by
  rcases h.wanted sig hsig with hclient | ⟨j, q, hq, hpending, hqsig⟩
  · exact .inl hclient
  · by_cases hne : j = i
    · subst hne
      obtain rfl := Option.some.inj (hr.symm.trans hq)
      exact .inr (.inr ⟨hpending, hqsig⟩)
    · exact .inr (.inl ⟨j, q, hne, hq, hpending, hqsig⟩)

theorem not_pending_called : ¬Stage.called.Pending := by decide
theorem not_pending_replaced : ¬Stage.replaced.Pending := by decide
theorem not_pending_failed : ¬Stage.failed.Pending := by decide

/-- What a step of a call or thread keeps. -/
theorem Manager.Sound.act (h : m.Sound) (hr : m.rebuilds[i]? = some r) {a : Act}
    (hclear : Clear m (.act i a)) {p : Manager × Stage} (hs : r.step m a = some p) :
    (Manager.moved i r p).Sound := by
  have hclear : r.Clear m i a := hclear r hr
  -- while the flag is down no thread runs
  have hbusy : m.clientBusy = false → ¬r.stage.Running ∧
      ∀ (j : Nat) (q : Rebuild), j ≠ i → m.rebuilds[j]? = some q → ¬q.stage.Running :=
    fun hnot => ⟨h.busy hnot i r hr, fun j q _ hq => h.busy hnot j q hq⟩
  cases a with
  | claim =>
    dsimp only [Rebuild.step] at hs
    split at hs
    · rename_i hstage
      split at hs
      · obtain rfl := Option.some.inj hs
        refine .moved hr rfl (fun sig hsig => ?_) fun hnot => ⟨by decide, (hbusy hnot).2⟩
        rcases h.others hr hsig with hclient | hother | ⟨hpending, -⟩
        · exact .inl hclient
        · exact .inr (.inl hother)
        · rw [hstage] at hpending
          exact absurd hpending not_pending_called
      · obtain rfl := Option.some.inj hs
        exact .moved hr rfl (fun sig hsig => .inr (.inr ⟨.inl rfl, Option.some.inj hsig⟩))
          fun hnot => ⟨by decide, (hbusy hnot).2⟩
    · cases hs
  | raise =>
    dsimp only [Rebuild.step] at hs
    split at hs
    · obtain rfl := Option.some.inj hs
      refine .moved hr rfl (fun sig hsig => ?_) nofun
      rcases h.others hr hsig with hclient | hother | ⟨-, hrsig⟩
      · exact .inl hclient
      · exact .inr (.inl hother)
      · exact .inr (.inr ⟨.inr (.inl rfl), hrsig⟩)
    · cases hs
  | build ok =>
    dsimp only [Rebuild.step] at hs
    split at hs
    · rename_i hstage
      obtain rfl := Option.some.inj hs
      have hrun : r.stage.Running := by
        rw [hstage]
        decide
      refine .moved hr rfl (fun sig hsig => ?_) fun hnot => absurd hrun (hbusy hnot).1
      cases ok with
      | true =>
        rcases h.others hr hsig with hclient | hother | ⟨-, hrsig⟩
        · exact .inl hclient
        · exact .inr (.inl hother)
        · exact .inr (.inr ⟨.inr (.inr rfl), hrsig⟩)
      | false =>
        rcases hclear with hclient | hawaited
        · exact .inl (Option.some.inj (hclient.symm.trans hsig))
        · exact .inr (.inl (hawaited.exists hsig))
    · cases hs
  | replace =>
    dsimp only [Rebuild.step] at hs
    split at hs
    · rename_i hstage
      obtain rfl := Option.some.inj hs
      have hrun : r.stage.Running := by
        rw [hstage]
        decide
      refine .moved hr rfl (fun sig hsig => ?_) fun hnot => absurd hrun (hbusy hnot).1
      rcases hclear with hown | hawaited
      · exact .inl (Option.some.inj (hown.symm.trans hsig))
      · exact .inr (.inl (hawaited.exists hsig))
    · cases hs
  | finish =>
    have hlast : ∀ (j : Nat) (q : Rebuild), j ≠ i → m.rebuilds[j]? = some q → ¬q.stage.Running :=
      fun j q hne hq => hclear j (List.getElem?_eq_some_iff.mp hq).1 hne q hq
    have hkeep : ¬r.stage.Pending →
        (Manager.moved i r ({ m with clientBusy := false }, .ended)).Sound := by
      intro hnot
      refine .moved hr rfl (fun sig hsig => ?_) fun _ => ⟨by decide, hlast⟩
      rcases h.others hr hsig with hclient | hother | ⟨hpending, -⟩
      · exact .inl hclient
      · exact .inr (.inl hother)
      · exact absurd hpending hnot
    dsimp only [Rebuild.step] at hs
    split at hs
    · rename_i hstage
      obtain rfl := Option.some.inj hs
      exact hkeep (hstage ▸ not_pending_replaced)
    · rename_i hstage
      obtain rfl := Option.some.inj hs
      exact hkeep (hstage ▸ not_pending_failed)
    · cases hs

theorem Manager.Sound.step {e : Event} (h : m.Sound) (hclear : Clear m e)
    (hs : m.step e = some m') : m'.Sound := by
  cases e with
  | configure options =>
    obtain rfl := Option.some.inj hs
    exact ⟨h.wanted, h.busy⟩
  | rebuild =>
    obtain rfl := Option.some.inj hs
    refine ⟨fun sig hsig => ?_, fun hnot j q hq => ?_⟩
    · rcases h.wanted sig hsig with hclient | ⟨j, q, hq, hrest⟩
      · exact .inl hclient
      · exact .inr ⟨j, q, by
          rw [List.getElem?_append_left (List.getElem?_eq_some_iff.mp hq).1]
          exact hq, hrest⟩
    · rcases List.mem_append.mp (List.mem_of_getElem? hq) with hq | hq
      · obtain ⟨k, hk⟩ := List.getElem?_of_mem hq
        exact h.busy hnot k q hk
      · obtain rfl := List.mem_singleton.mp hq
        exact (by decide : ¬Stage.called.Running)
  | act i a =>
    obtain ⟨r, hr, hs⟩ := Option.bind_eq_some_iff.mp hs
    obtain ⟨p, hp, rfl⟩ := Option.map_eq_some_iff.mp hs
    exact h.act hr hclear hp
  | ready =>
    obtain ⟨-, rfl⟩ := step_ready hs
    exact h

theorem sound_new (options : ClientOptions) : (Manager.new options).Sound where
  wanted _ hsig := by cases hsig
  busy _ j q hq := by cases hq

/-- **The client follows the options, and waiting waits**, in a run in which no thread comes late,
fails or ends while another one runs. -/
theorem follows_of_clear_run (options : ClientOptions) (es : List Event) (m : Manager)
    (hclear : Along Manager.step Clear (Manager.new options) es)
    (hrun : run Manager.step (Manager.new options) es = some m) :
    m.Follows ∧
      Along Manager.step (fun m e => (m.step e).isSome = true → WaitsFor m e)
        (Manager.new options) es := by
  have hkeep : ∀ m e m', Manager.Sound m → Clear m e → m.step e = some m' → m'.Sound :=
    fun _ _ _ h hc hs => h.step hc hs
  refine ⟨(run_invariant hkeep (sound_new options) hclear hrun).follows,
    along_of_along (fun m e h hc hsome => ?_) hkeep (sound_new options) hclear⟩
  obtain ⟨m', hm'⟩ := Option.isSome_iff_exists.mp hsome
  exact h.waitsFor hc hm'

/-! ## Two changes of the proxy -/

instance decidableAwaited (m : Manager) (i : Nat) : Decidable (m.Awaited i) :=
  inferInstanceAs (Decidable (∃ j, j < m.rebuilds.length ∧ j ≠ i ∧ ∃ q ∈ m.rebuilds[j]?,
    q.stage.Pending ∧ m.clientSig = some q.sig))

instance decidableRebuildClear (r : Rebuild) (m : Manager) (i : Nat) :
    (a : Act) → Decidable (r.Clear m i a)
  | .claim => isTrue trivial
  | .raise => isTrue trivial
  | .build true => isTrue trivial
  | .build false =>
    inferInstanceAs (Decidable (m.clientSig = some m.client ∨ m.Awaited i))
  | .replace => inferInstanceAs (Decidable (m.clientSig = some r.sig ∨ m.Awaited i))
  | .finish => inferInstanceAs (Decidable (∀ j, j < m.rebuilds.length → j ≠ i →
      ∀ q ∈ m.rebuilds[j]?, ¬q.stage.Running))

instance decidableClear (m : Manager) : (e : Event) → Decidable (Clear m e)
  | .configure _ => isTrue trivial
  | .rebuild => isTrue trivial
  | .act i a => inferInstanceAs (Decidable (∀ r ∈ m.rebuilds[i]?, r.Clear m i a))
  | .ready => inferInstanceAs (Decidable (∀ r ∈ m.rebuilds, r.stage ≠ .claimed))

/-- The options with this proxy. -/
def proxied (proxy : String) : ClientOptions := ⟨none, some proxy, none⟩

/-- The proxy is set, and when the client is replaced it is set anew. -/
def oneByOne : List Event :=
  [.configure (proxied "p"), .rebuild, .act 0 .claim, .act 0 .raise, .act 0 (.build true),
    .act 0 .replace, .act 0 .finish, .ready, .configure (proxied "q"), .rebuild, .act 1 .claim,
    .act 1 .raise, .act 1 (.build true), .act 1 .replace, .act 1 .finish, .ready]

theorem oneByOne_follows :
    ∃ m, run Manager.step (Manager.new ⟨none, none, none⟩) oneByOne = some m ∧
      m.client = proxied "q" ∧ m.Follows ∧
      Along Manager.step (fun m e => (m.step e).isSome = true → WaitsFor m e)
        (Manager.new ⟨none, none, none⟩) oneByOne := by
  have hend : (run Manager.step (Manager.new ⟨none, none, none⟩) oneByOne).map
      (fun m => m.client) = some (proxied "q") := by
    decide +kernel
  obtain ⟨m, hm, hclient⟩ := Option.map_eq_some_iff.mp hend
  exact ⟨m, hm, hclient, follows_of_clear_run _ oneByOne m (by decide +kernel) hm⟩

/-- The proxy is set anew while the client is being built. -/
def overlapping : List Event :=
  [.configure (proxied "p"), .rebuild, .act 0 .claim, .act 0 .raise, .configure (proxied "q"),
    .rebuild, .act 1 .claim, .act 1 .raise]

/-- The second thread ends first. -/
def lateFirst : List Event :=
  overlapping ++ [.act 1 (.build true), .act 0 (.build true), .act 1 .replace, .act 0 .replace,
    .act 1 .finish, .act 0 .finish]

/-- The build of the first values fails. -/
def failing : List Event :=
  [.configure (proxied "p"), .rebuild, .act 0 .claim, .act 0 .raise, .act 0 (.build false),
    .act 0 .finish]

/-- The thread that comes late leaves its client for good, and so does a build that fails; and
waiting is over when the first of two threads ends. -/
theorem rebuilds_go_wrong :
    (∃ m, run Manager.step (Manager.new ⟨none, none, none⟩) lateFirst = some m ∧ ¬m.Follows) ∧
    (∃ m, run Manager.step (Manager.new ⟨none, none, none⟩) failing = some m ∧ ¬m.Follows) ∧
    ∃ m, run Manager.step (Manager.new ⟨none, none, none⟩)
        (overlapping ++ [.act 1 (.build true), .act 1 .replace, .act 1 .finish]) = some m ∧
      (m.step .ready).isSome = true ∧ ¬WaitsFor m .ready := by
  have hlate : (run Manager.step (Manager.new ⟨none, none, none⟩) lateFirst).map
      (fun m => decide (m.rebuilds.all (fun r => r.stage = .ended) = true ∧
        m.client ≠ m.options ∧ m.clientSig = some m.options)) = some true := by
    decide +kernel
  have hfail : (run Manager.step (Manager.new ⟨none, none, none⟩) failing).map
      (fun m => decide (m.rebuilds.all (fun r => r.stage = .ended) = true ∧
        m.client ≠ m.options ∧ m.clientSig = some m.options)) = some true := by
    decide +kernel
  have hwait : (run Manager.step (Manager.new ⟨none, none, none⟩)
      (overlapping ++ [.act 1 (.build true), .act 1 .replace, .act 1 .finish])).map
      (fun m => decide ((m.step .ready).isSome = true ∧
        ∃ r ∈ m.rebuilds, r.stage.Running)) = some true := by
    decide +kernel
  have hstuck : ∀ m : Manager, decide (m.rebuilds.all (fun r => r.stage = .ended) = true ∧
      m.client ≠ m.options ∧ m.clientSig = some m.options) = true → ¬m.Follows := by
    intro m hm h
    obtain ⟨hended, hclient, hsig⟩ := of_decide_eq_true hm
    exact (h fun r hr => of_decide_eq_true (List.all_eq_true.mp hended r hr)).elim hclient
      fun hne => hne hsig
  obtain ⟨m₁, hm₁, hlate⟩ := Option.map_eq_some_iff.mp hlate
  obtain ⟨m₂, hm₂, hfail⟩ := Option.map_eq_some_iff.mp hfail
  obtain ⟨m₃, hm₃, hwait⟩ := Option.map_eq_some_iff.mp hwait
  obtain ⟨henabled, r, hr, hrun⟩ := of_decide_eq_true hwait
  exact ⟨⟨m₁, hm₁, hstuck m₁ hlate⟩, ⟨m₂, hm₂, hstuck m₂ hfail⟩,
    ⟨m₃, hm₃, henabled, fun h => (h rfl r hr).2 hrun⟩⟩

end XferRust.Engine.HttpClient
