import XferRust.Storage.Finish

/-! # The order of saves

A background save takes its bitfield when it is scheduled and writes the control file some time
later, on another thread.  Nothing makes a forced save, or the removal at the end, wait for those
that are scheduled: one of them may write its older bitfield over the forced one, or write a new
file after the old one was removed.
-/
namespace XferRust.Storage
namespace Download
variable {F : Type} [DecidableEq F] {Hash : Type} [DecidableEq Hash] {sha1 : List UInt8 → Hash}
  {hashes : UInt32 → Hash} {seedMode : Bool} {d d' : Download F}

/-- The control file is not older than the last forced save, and there is none after its removal. -/
structure Forward (d : Download F) : Prop where
  forced : ∀ n, d.forced = some n → d.removed = false → ∃ p, d.ctrl = some p ∧ n ≤ p.number
  removed : d.removed = true → d.ctrl = none

/-- The condition on a step: when a forced save is written, no save that was taken before it waits
in the background; when the control file is removed, none waits there at all; and none is scheduled
after that. -/
def InOrder (d : Download F) : DownloadEvent → Prop
  | .force true => ∀ p ∈ d.pending, ∀ q ∈ d.forcing, q.number ≤ p.number
  | .remove true => d.pending = []
  | .save false => d.removed = false
  | _ => True

instance (d : Download F) : DecidablePred d.InOrder := fun e => by
  cases e with
  | force ok =>
    cases ok with
    | true =>
      exact inferInstanceAs (Decidable (∀ p ∈ d.pending, ∀ q ∈ d.forcing, q.number ≤ p.number))
    | false => exact instDecidableTrue
  | remove ok =>
    cases ok with
    | true => exact inferInstanceAs (Decidable (d.pending = []))
    | false => exact instDecidableTrue
  | save throttled =>
    cases throttled with
    | true => exact instDecidableTrue
    | false => exact inferInstanceAs (Decidable (d.removed = false))
  | _ => exact instDecidableTrue

/-- What holds in every state of a run whose saves are in order. -/
structure Numbered (d : Download F) : Prop where
  forward : d.Forward
  waiting : ∀ p ∈ d.pending, ∀ n, d.forced = some n → n ≤ p.number
  last : ∀ n, d.forced = some n → n ≤ d.snapshots
  forcing : ∀ p, d.forcing = some p → p.number ≤ d.snapshots ∧
    (d.phase = .verifying ∨ d.phase = .stopping)
  idle : d.removed = true → d.pending = [] ∧ (d.phase = .seeding ∨ ∃ ok, d.phase = .returned ok)

omit [DecidableEq F] in
/-- Nothing else of a run counts. -/
theorem Numbered.congr (h : d.Numbered) (hpending : d'.pending = d.pending)
    (hforced : d'.forced = d.forced) (hforcing : d'.forcing = d.forcing) (hctrl : d'.ctrl = d.ctrl)
    (hsnapshots : d'.snapshots = d.snapshots) (hremoved : d'.removed = d.removed)
    (hverifying : d.forcing ≠ none → d'.phase = d.phase)
    (hphase : d.removed = true → d'.phase = .seeding ∨ ∃ ok, d'.phase = .returned ok) :
    d'.Numbered := by
  refine ⟨⟨?_, ?_⟩, ?_, ?_, ?_, ?_⟩
  · rw [hforced, hremoved, hctrl]
    exact h.forward.forced
  · rw [hremoved, hctrl]
    exact h.forward.removed
  · rw [hpending, hforced]
    exact h.waiting
  · rw [hforced, hsnapshots]
    exact h.last
  · intro p hp
    rw [hforcing] at hp
    rw [hsnapshots, hverifying (by rw [hp]; exact Option.some_ne_none p)]
    exact h.forcing p hp
  · intro hr
    rw [hremoved] at hr
    rw [hpending]
    exact ⟨(h.idle hr).1, hphase hr⟩

theorem step_numbered {e : DownloadEvent} (h : d.Numbered) (hok : d.InOrder e)
    (hstep : d.step sha1 hashes seedMode e = some d') : d'.Numbered := by
  -- after the removal no step of the download is left
  have hnot {p : Phase} (hp : d.phase = p) (hseed : p ≠ .seeding) (hret : ∀ ok, p ≠ .returned ok) :
      d.removed ≠ true := by
    intro hr
    rcases (h.idle hr).2 with hp' | ⟨ok, hp'⟩
    · exact hseed (hp.symm.trans hp')
    · exact hret ok (hp.symm.trans hp')
  -- a forced save is under way only before and after the download
  have hnone {p : Phase} (hp : d.phase = p) (hv : p ≠ .verifying) (hs : p ≠ .stopping) :
      d.forcing = none := by
    cases hf : d.forcing with
    | none => rfl
    | some q =>
      rcases (h.forcing q hf).2 with hp' | hp'
      · exact absurd (hp.symm.trans hp') hv
      · exact absurd (hp.symm.trans hp') hs
  cases e with
  | call c os =>
    obtain ⟨t, ht, rfl⟩ := Option.map_eq_some_iff.mp hstep
    exact h.congr rfl rfl rfl rfl rfl rfl (fun _ => rfl) fun hr => (h.idle hr).2
  | select wanted =>
    rw [step] at hstep
    split at hstep
    · cases hstep
    · obtain rfl := Option.some.inj hstep
      exact h.congr rfl rfl rfl rfl rfl rfl (fun _ => rfl) fun hr => (h.idle hr).2
  | save throttled =>
    rw [step] at hstep
    split at hstep
    · cases hstep
    · cases throttled with
      | true =>
        obtain rfl := Option.some.inj hstep
        exact h.congr rfl rfl rfl rfl rfl rfl (fun _ => rfl) fun hr => (h.idle hr).2
      | false =>
        obtain rfl := Option.some.inj hstep
        refine ⟨⟨h.forward.forced, h.forward.removed⟩, fun p hp n hn => ?_, fun n hn => ?_,
          fun p hp => ?_, fun hr => ?_⟩
        · rcases List.mem_append.mp hp with hp | hp
          · exact h.waiting p hp n hn
          · obtain rfl := List.mem_singleton.mp hp
            exact Nat.le_succ_of_le (h.last n hn)
        · exact Nat.le_succ_of_le (h.last n hn)
        · exact ⟨Nat.le_succ_of_le (h.forcing p hp).1, (h.forcing p hp).2⟩
        · exact absurd (hok.symm.trans hr) Bool.false_ne_true
  | written j ok =>
    obtain ⟨p, hp, rfl⟩ := Option.map_eq_some_iff.mp hstep
    have hmem : p ∈ d.pending := List.mem_of_getElem? hp
    have hlive : d.removed ≠ true := fun hr => by
      rw [(h.idle hr).1] at hmem
      cases hmem
    refine ⟨⟨fun n hn hr => ?_, fun hr => absurd hr hlive⟩, fun p hp => ?_, h.last, h.forcing,
      fun hr => absurd hr hlive⟩
    · cases ok with
      | true => exact ⟨p, rfl, h.waiting p hmem n hn⟩
      | false => exact h.forward.forced n hn hr
    · exact h.waiting p (List.mem_of_mem_eraseIdx hp)
  | snapshot =>
    obtain ⟨⟨hnone, hp⟩, hstep⟩ := Option.ite_none_right_eq_some.mp hstep
    obtain rfl := Option.some.inj hstep
    refine ⟨⟨h.forward.forced, h.forward.removed⟩, h.waiting,
      fun n hn => Nat.le_succ_of_le (h.last n hn), fun p hq => ?_, h.idle⟩
    obtain rfl := Option.some.inj hq
    exact ⟨Nat.le_refl _, hp⟩
  | force ok =>
    obtain ⟨p, hp, rfl⟩ := Option.map_eq_some_iff.mp hstep
    obtain ⟨hle, hphase⟩ := h.forcing p hp
    have hlive : d.removed ≠ true := by
      rcases hphase with hphase | hphase
      · exact hnot hphase (by decide) (by decide)
      · exact hnot hphase (by decide) (by decide)
    cases ok with
    | true =>
      refine ⟨⟨fun n hn _ => ⟨p, rfl, Nat.le_of_eq (Option.some.inj hn).symm⟩,
        fun hr => absurd hr hlive⟩, fun q hq n hn => ?_, fun n hn => ?_, fun _ hno => (by cases hno),
        fun hr => absurd hr hlive⟩
      · exact Option.some.inj hn ▸ hok q hq p hp
      · exact Option.some.inj hn ▸ hle
    | false =>
      exact ⟨⟨h.forward.forced, h.forward.removed⟩, h.waiting, h.last, fun _ hno => (by cases hno),
        fun hr => absurd hr hlive⟩
  | begin =>
    obtain ⟨⟨hp, hf⟩, hstep⟩ := Option.ite_none_right_eq_some.mp hstep
    obtain rfl := Option.some.inj hstep
    exact h.congr rfl rfl rfl rfl rfl rfl (absurd hf) fun hr => absurd hr (hnot hp (by decide) (by decide))
  | isDone =>
    obtain ⟨⟨hp, -⟩, hstep⟩ := Option.ite_none_right_eq_some.mp hstep
    obtain rfl := Option.some.inj hstep
    exact h.congr rfl rfl rfl rfl rfl rfl (absurd (hnone hp (by decide) (by decide))) fun hr =>
      absurd hr (hnot hp (by decide) (by decide))
  | flush os =>
    obtain ⟨hp, hstep⟩ := Option.ite_none_right_eq_some.mp hstep
    obtain ⟨r, hr, rfl⟩ := Option.map_eq_some_iff.mp hstep
    exact h.congr rfl rfl rfl rfl rfl rfl (absurd (hnone hp (by decide) (by decide))) fun hr =>
      absurd hr (hnot hp (by decide) (by decide))
  | remove ok =>
    obtain ⟨hp, hstep⟩ := Option.ite_none_right_eq_some.mp hstep
    obtain rfl := Option.some.inj hstep
    have hf := hnone hp (by decide) (by decide)
    cases ok with
    | true =>
      refine ⟨⟨fun n _ hr => ?_, fun _ => rfl⟩, h.waiting, h.last,
        (fun p hq => by cases hf.symm.trans hq), fun _ => ⟨hok, ?_⟩⟩
      · rw [show (d.removed || true) = true from Bool.or_true _] at hr
        cases hr
      · cases seedMode with
        | true => exact .inl rfl
        | false => exact .inr ⟨true, rfl⟩
    | false =>
      exact h.congr rfl rfl rfl rfl rfl (Bool.or_false _) (absurd hf) fun hr =>
        absurd hr (hnot hp (by decide) (by decide))
  | seedEnd =>
    obtain ⟨hp, hstep⟩ := Option.ite_none_right_eq_some.mp hstep
    obtain rfl := Option.some.inj hstep
    exact h.congr rfl rfl rfl rfl rfl rfl (absurd (hnone hp (by decide) (by decide))) fun _ =>
      .inr ⟨true, rfl⟩
  | cancel os =>
    rw [step] at hstep
    split at hstep
    · rename_i hp
      obtain ⟨r, hr, rfl⟩ := Option.map_eq_some_iff.mp hstep
      exact h.congr rfl rfl rfl rfl rfl rfl (absurd (hnone hp (by decide) (by decide))) fun hr =>
        absurd hr (hnot hp (by decide) (by decide))
    · obtain ⟨hp, hstep⟩ := Option.ite_none_right_eq_some.mp hstep
      obtain rfl := Option.some.inj hstep
      exact h.congr rfl rfl rfl rfl rfl rfl (absurd (hnone hp (by decide) (by decide))) fun _ =>
        .inr ⟨false, rfl⟩

/-- **The control file does not go backwards** in a run whose saves are in order. -/
theorem forward_of_run {s₀ : PieceStore F} {content : F → List UInt8} {wanted : Option PieceMap}
    {ctrl : Option (List UInt8)} {es : List DownloadEvent}
    (hok : StepRun.Along (step sha1 hashes seedMode) InOrder (.start s₀ content wanted ctrl) es) :
    StepRun.Everywhere (step sha1 hashes seedMode) Forward (.start s₀ content wanted ctrl) es := by
  have hstart : Numbered (.start s₀ content wanted ctrl) :=
    ⟨⟨nofun, nofun⟩, nofun, nofun, nofun, nofun⟩
  exact StepRun.everywhere_of_along (fun _ => Numbered.forward)
    (fun _ _ _ hs hP hstep => step_numbered hs hP hstep) hstart hok

/-! ## Two pieces -/

/-- The store over one new file of two pieces. -/
def twoPieces : PieceStore Unit where
  layout := { pieceLength := 4, files := [⟨["a"], 8, 0⟩], multiFile := false }
  files := [some ()]
  disk := { content := fun _ => [], outcomes := [] }
  map := .new 2
  writeCache := []
  writeCacheBytes := 0
  cacheLimit := 0

/-- A run over it, in which the hash of a piece is the piece. -/
def twoPiecesStep : Download Unit → DownloadEvent → Option (Download Unit) :=
  step id (fun i => if i = 0 then [1, 2, 3, 4] else [5, 6, 7, 8]) false

def twoPiecesStart : Download Unit := .start twoPieces (fun _ => []) none none

/-- The first piece is saved in the background, the second one comes within the second. -/
def twoPiecesStored : List DownloadEvent :=
  [.begin, .call (.accept 0 [1, 2, 3, 4]) [], .save false, .call (.accept 1 [5, 6, 7, 8]) [],
    .save true]

/-- The background save is over before the run is stopped. -/
theorem twoPieces_forward : StepRun.Everywhere twoPiecesStep Forward twoPiecesStart
    (twoPiecesStored ++ [.written 0 true, .cancel [], .snapshot, .force true]) :=
  forward_of_run (by decide)

/-- Where it comes after the forced save, or after the end of the download, its bitfield without the
second piece is what remains. -/
theorem twoPieces_backward :
    (StepRun.run twoPiecesStep twoPiecesStart
        (twoPiecesStored ++ [.cancel [], .snapshot, .force true])).map Download.ctrl =
      some (some ⟨2, [192]⟩) ∧
    (StepRun.run twoPiecesStep twoPiecesStart
        (twoPiecesStored ++ [.cancel [], .snapshot, .force true, .written 0 true])).map
          Download.ctrl = some (some ⟨1, [128]⟩) ∧
    (StepRun.run twoPiecesStep twoPiecesStart
        (twoPiecesStored ++ [.isDone, .flush [], .remove true, .written 0 true])).map
          (fun d => (d.removed, d.ctrl)) = some (true, some ⟨1, [128]⟩) ∧
    ¬ StepRun.Everywhere twoPiecesStep Forward twoPiecesStart
        (twoPiecesStored ++ [.cancel [], .snapshot, .force true, .written 0 true]) ∧
    ¬ StepRun.Everywhere twoPiecesStep Forward twoPiecesStart
        (twoPiecesStored ++ [.isDone, .flush [], .remove true, .written 0 true]) := by
  refine ⟨rfl, rfl, rfl, fun h => ?_, fun h => ?_⟩
  · obtain ⟨d, hrun, hforced, hlive, hctrl⟩ : ∃ d, StepRun.run twoPiecesStep twoPiecesStart
        (twoPiecesStored ++ [.cancel [], .snapshot, .force true, .written 0 true]) = some d ∧
        d.forced = some 2 ∧ d.removed = false ∧ d.ctrl = some ⟨1, [128]⟩ :=
      ⟨_, rfl, rfl, rfl, rfl⟩
    obtain ⟨p, hp, hle⟩ := (h 9 d hrun).forced 2 hforced hlive
    obtain rfl := Option.some.inj (hctrl.symm.trans hp)
    exact absurd hle (by decide)
  · obtain ⟨d, hrun, hremoved, hctrl⟩ : ∃ d, StepRun.run twoPiecesStep twoPiecesStart
        (twoPiecesStored ++ [.isDone, .flush [], .remove true, .written 0 true]) = some d ∧
        d.removed = true ∧ d.ctrl = some ⟨1, [128]⟩ := ⟨_, rfl, rfl, rfl⟩
    have := (h 9 d hrun).removed hremoved
    rw [hctrl] at this
    cases this

end Download

end XferRust.Storage
