import XferRust.Lan.ReceiveFiles

/-! # When the files of incoming transfers collide

A place that a transfer has found free can be found free by another one, until the first has
created its `.part` there or has renamed it to there.  Where no transfer takes such a place, no two
write to one file, no rename replaces a file, and each task that is done has recorded the path of a
file with what it has received: `safe_of_clear_run`.  Otherwise two offers of one name are enough:
`twoOffers_collide`.
-/
namespace XferRust.Lan
open Directory

variable {δ : Type} [DecidableEq δ]

/-! ## Runs without a race -/

/-- The place that the transfer has found free, while it has not acted on it. -/
def Incoming.pending (t : Incoming δ) : Option (Place δ) :=
  match t.phase with
  | .creating part _ => some part
  | .moving _ target _ => some target
  | _ => none

/-- The place that a step finds free. -/
def Incoming.found (t : Incoming δ) (files : Directory (Place δ)) : Act → Option (Place δ)
  | .reserve random =>
    match t.phase with
    | .offered => some (reservePair files t.dir t.name random).1
    | _ => none
  | .finish random =>
    match t.phase with
    | .receiving _ final _ => some (chooseFinal files t.dir t.name random final)
    | _ => none
  | _ => none

/-- No transfer takes a place that is taken, or that another one has found free and has not acted
on yet. -/
def Move.Clear (s : Receiving δ) : Move δ → Prop
  | .offer _ _ => True
  | .act i a => ∀ t ∈ s.transfers[i]?, ∀ p ∈ t.found s.files a,
      ¬s.files.Has p ∧ ∀ u ∈ s.transfers, u.pending ≠ some p

/-- Each move of the run is clear. -/
def ClearRun (s : Receiving δ) : List (Move δ) → Prop
  | [] => True
  | m :: ms => m.Clear s ∧ ∀ s' ∈ s.step m, ClearRun s' ms

instance decidableClear (s : Receiving δ) : (m : Move δ) → Decidable (m.Clear s)
  | .offer _ _ => isTrue trivial
  | .act i a => inferInstanceAs (Decidable (∀ t ∈ s.transfers[i]?, ∀ p ∈ t.found s.files a,
      ¬s.files.Has p ∧ ∀ u ∈ s.transfers, u.pending ≠ some p))

instance decidableClearRun : (s : Receiving δ) → (ms : List (Move δ)) → Decidable (ClearRun s ms)
  | _, [] => isTrue trivial
  | s, m :: ms =>
    have : ∀ s', Decidable (ClearRun s' ms) := fun s' => decidableClearRun s' ms
    inferInstanceAs (Decidable (m.Clear s ∧ ∀ s' ∈ s.step m, ClearRun s' ms))

/-! ## What holds -/

/-- The place and the number of the file that the transfer has made. -/
def Incoming.file? (t : Incoming δ) : Option (Place δ × Nat) :=
  match t.phase with
  | .accepting part _ file => some (part, file)
  | .receiving part _ file => some (part, file)
  | .moving part _ file => some (part, file)
  | .removing part file => some (part, file)
  | .done path file => some (path, file)
  | _ => none

/-- What holds of one transfer and the files. -/
structure Incoming.Sound (t : Incoming δ) (files : Directory (Place δ)) : Prop where
  /-- Its file is where it has put it, with what it has received. -/
  file : ∀ e ∈ t.file?, files.names e.1 = some e.2 ∧ files.data e.2 = t.received
  /-- The place that it has found free is still free. -/
  pending : ∀ p ∈ t.pending, files.names p = none
  /-- Before it has a file it has received nothing. -/
  new : t.phase = .offered ∨ (∃ part final, t.phase = .creating part final) → t.received = []

/-- Two transfers have different files, and different places that they have found free. -/
structure Incoming.Apart (t u : Incoming δ) : Prop where
  files : ∀ e ∈ t.file?, ∀ f ∈ u.file?, e.2 ≠ f.2
  pending : ∀ p ∈ t.pending, u.pending ≠ some p

variable {t : Incoming δ}

omit [DecidableEq δ] in
theorem Incoming.Apart.symm {u : Incoming δ} (h : t.Apart u) : u.Apart t where
  files f hf e he := fun heq => h.files e he f hf heq.symm
  pending p hp := fun heq => h.pending p heq hp

/-- What holds of all of them. -/
structure Receiving.Sound (s : Receiving δ) : Prop where
  one : ∀ (i : Nat) (t : Incoming δ), s.transfers[i]? = some t → t.Sound s.files
  apart : ∀ (i j : Nat) (t u : Incoming δ), s.transfers[i]? = some t → s.transfers[j]? = some u →
    i ≠ j → t.Apart u

/-! ## One step of one transfer -/

/-- What a step of a transfer does. -/
structure Effect (t : Incoming δ) (files : Directory (Place δ)) (t' : Incoming δ)
    (files' : Directory (Place δ)) : Prop where
  sound : t'.Sound files'
  /-- The files of others stay. -/
  others : ∀ q j, files.names q = some j → (∀ e ∈ t.file?, e.2 ≠ j) →
    files'.names q = some j ∧ files'.data j = files.data j
  /-- The places that others have found free stay free. -/
  free : ∀ q, files.names q = none → t.pending ≠ some q → files'.names q = none
  /-- Its file is the one that it had, or a new one. -/
  own : ∀ e ∈ t'.file?, (∃ f ∈ t.file?, f.2 = e.2) ∨ e.2 = files.next

variable {files : Directory (Place δ)}

omit [DecidableEq δ] in
/-- A step that does not touch the files. -/
theorem effect_of_same {t' : Incoming δ} (h : t.Sound files) (hfile : ∀ e ∈ t'.file?, e ∈ t.file?)
    (hreceived : t'.received = t.received) (hpending : ∀ p ∈ t'.pending, files.names p = none)
    (hnew : t'.phase = .offered ∨ (∃ part final, t'.phase = .creating part final) →
      t'.received = []) : Effect t files t' files where
  sound := ⟨fun e he => hreceived ▸ h.file e (hfile e he), hpending, hnew⟩
  others := fun _ _ hq _ => ⟨hq, rfl⟩
  free := fun _ hq _ => hq
  own := fun e he => .inl ⟨e, hfile e he, rfl⟩

variable {part : Place δ}

theorem effect_create {final : Place δ} (h : t.Sound files)
    (hphase : t.phase = .creating part final) :
    Effect t files { t with phase := .accepting part final (files.create part).2 }
      (files.create part).1 := by
  have hpending : t.pending = some part := by rw [Incoming.pending, hphase]
  have hnone := h.pending part hpending
  have hreceived := h.new (.inr ⟨part, final, hphase⟩)
  obtain ⟨hnum, hnames, hdata, -⟩ := create_new hnone
  refine ⟨⟨fun e he => ?_, (fun p hp => by cases hp), fun hp => ?_⟩, fun q j hq _ => ?_,
    fun q hq hne => ?_, fun e he => ?_⟩
  · obtain rfl := Option.some.inj he
    rw [hnames, hdata, hnum, put_self, put_self]
    exact ⟨rfl, hreceived.symm⟩
  · rcases hp with hp | ⟨_, _, hp⟩
    · cases hp
    · cases hp
  · have hlt := files.known q j hq
    have hqp : q ≠ part := fun heq => by
      rw [heq, hnone] at hq
      cases hq
    rw [hnames, hdata, put_of_ne hqp, put_of_ne (Nat.ne_of_lt hlt)]
    exact ⟨hq, rfl⟩
  · rw [hnames, put_of_ne fun heq => hne (by rw [hpending, heq])]
    exact hq
  · obtain rfl := Option.some.inj he
    exact .inr hnum

omit [DecidableEq δ] in
theorem effect_write {final : Place δ} {file : Nat} (h : t.Sound files)
    (hphase : t.phase = .receiving part final file) (bytes : List UInt8) :
    Effect t files { t with received := t.received ++ bytes }
      (files.write file t.received.length bytes) := by
  have hfile : t.file? = some (part, file) := by rw [Incoming.file?, hphase]
  obtain ⟨hname, hdata⟩ := h.file _ hfile
  refine ⟨⟨fun e he => ?_, h.pending, fun hp => ?_⟩, fun q j hq hne => ?_, fun q hq _ => hq,
    fun e he => .inl ⟨e, he, rfl⟩⟩
  · obtain rfl := Option.some.inj (hfile.symm.trans he)
    refine ⟨hname, ?_⟩
    show put files.data file _ file = _
    rw [put_self, hdata, writeAt_end]
  · rw [show ({ t with received := t.received ++ bytes } : Incoming δ).phase = t.phase from rfl,
      hphase] at hp
    rcases hp with hp | ⟨_, _, hp⟩
    · cases hp
    · cases hp
  · refine ⟨hq, put_of_ne (hne _ hfile).symm⟩

theorem effect_rename {files' : Directory (Place δ)} {target : Place δ} {file : Nat}
    (h : t.Sound files) (hphase : t.phase = .moving part target file)
    (hrename : files.rename part target = some files') :
    Effect t files { t with phase := .done target file } files' := by
  have hfile : t.file? = some (part, file) := by rw [Incoming.file?, hphase]
  have hpending : t.pending = some target := by rw [Incoming.pending, hphase]
  obtain ⟨hname, hdata⟩ := h.file _ hfile
  have hfree := h.pending _ hpending
  obtain ⟨i, hi, hnames, hsame, -⟩ := rename_eq_some hrename
  obtain rfl : i = file := Option.some.inj (hi.symm.trans hname)
  refine ⟨⟨fun e he => ?_, (fun p hp => by cases hp), fun hp => ?_⟩, fun q j hq hne => ?_,
    fun q hq hne => ?_, fun e he => ?_⟩
  · obtain rfl := Option.some.inj he
    rw [hnames, hsame, put_self]
    exact ⟨rfl, hdata⟩
  · rcases hp with hp | ⟨_, _, hp⟩
    · cases hp
    · cases hp
  · have hqt : q ≠ target := fun heq => by
      rw [heq, hfree] at hq
      cases hq
    have hqp : q ≠ part := fun heq => by
      rw [heq, hname] at hq
      exact hne _ hfile (Option.some.inj hq)
    rw [hnames, hsame, put_of_ne hqt, put_of_ne hqp]
    exact ⟨hq, rfl⟩
  · have hqt : q ≠ target := fun heq => hne (by rw [hpending, heq])
    rw [hnames, put_of_ne hqt]
    by_cases hqp : q = part
    · rw [hqp, put_self]
    · rw [put_of_ne hqp]
      exact hq
  · obtain rfl := Option.some.inj he
    exact .inl ⟨_, hfile, rfl⟩

theorem effect_remove {file : Nat} (h : t.Sound files) (hphase : t.phase = .removing part file) :
    Effect t files { t with phase := .failed } (files.remove part) := by
  have hfile : t.file? = some (part, file) := by rw [Incoming.file?, hphase]
  obtain ⟨hname, -⟩ := h.file _ hfile
  refine ⟨⟨(fun e he => by cases he), (fun p hp => by cases hp), fun hp => ?_⟩,
    fun q j hq hne => ⟨?_, rfl⟩, fun q hq _ => ?_, fun e he => by cases he⟩
  · rcases hp with hp | ⟨_, _, hp⟩
    · cases hp
    · cases hp
  · have hqp : q ≠ part := fun heq => by
      rw [heq, hname] at hq
      exact hne _ hfile (Option.some.inj hq)
    exact (put_of_ne hqp).trans hq
  · show put files.names part none q = none
    by_cases hqp : q = part
    · rw [hqp, put_self]
    · rw [put_of_ne hqp]
      exact hq

/-- **Each step of a transfer** that takes no place of another one. -/
theorem effect_step {a : Act} {r : Directory (Place δ) × Incoming δ} (h : t.Sound files)
    (hclear : ∀ p ∈ t.found files a, ¬files.Has p) (hs : t.step files a = some r) :
    Effect t files r.2 r.1 ∧ ∀ p ∈ r.2.pending, t.pending = some p ∨ t.found files a = some p := by
  obtain ⟨dir, name, received, phase⟩ := t
  cases a with
  | reserve random =>
    cases phase with
    | offered =>
      obtain rfl := Option.some.inj hs
      have hfree := not_has.mp (hclear _ rfl)
      refine ⟨effect_of_same h (fun e he => by cases he) rfl (fun p hp => ?_)
        (fun _ => h.new (.inl rfl)), fun p hp => .inr hp⟩
      obtain rfl := Option.some.inj hp
      exact hfree
    | _ => cases hs
  | create ok =>
    cases phase with
    | creating part final =>
      cases ok with
      | true =>
        obtain rfl := Option.some.inj hs
        exact ⟨effect_create h rfl, fun p hp => by cases hp⟩
      | false =>
        obtain rfl := Option.some.inj hs
        exact ⟨effect_of_same h (fun e he => by cases he) rfl (fun p hp => by cases hp)
          (fun hp => hp.elim nofun fun ⟨_, _, hp⟩ => by cases hp),
          fun p hp => by cases hp⟩
    | _ => cases hs
  | accept ok =>
    cases phase with
    | accepting part final file =>
      obtain rfl := Option.some.inj hs
      cases ok with
      | true => exact ⟨effect_of_same h (fun e he => he) rfl (fun p hp => by cases hp)
          (fun hp => hp.elim nofun fun ⟨_, _, hp⟩ => by cases hp),
          fun p hp => by cases hp⟩
      | false => exact ⟨effect_of_same h (fun e he => he) rfl (fun p hp => by cases hp)
          (fun hp => hp.elim nofun fun ⟨_, _, hp⟩ => by cases hp),
          fun p hp => by cases hp⟩
    | _ => cases hs
  | write bytes =>
    cases phase with
    | receiving part final file =>
      obtain rfl := Option.some.inj hs
      exact ⟨effect_write h rfl bytes, fun p hp => by cases hp⟩
    | _ => cases hs
  | fail =>
    cases phase with
    | receiving part final file =>
      obtain rfl := Option.some.inj hs
      exact ⟨effect_of_same h (fun e he => he) rfl (fun p hp => by cases hp)
        (fun hp => hp.elim nofun fun ⟨_, _, hp⟩ => by cases hp),
        fun p hp => by cases hp⟩
    | _ => cases hs
  | finish random =>
    cases phase with
    | receiving part final file =>
      obtain rfl := Option.some.inj hs
      have hfree := not_has.mp (hclear _ rfl)
      refine ⟨effect_of_same h (fun e he => he) rfl (fun p hp => ?_)
        (fun hp => hp.elim nofun fun ⟨_, _, hp⟩ => by cases hp),
        fun p hp => .inr hp⟩
      obtain rfl := Option.some.inj hp
      exact hfree
    | _ => cases hs
  | rename ok =>
    cases phase with
    | moving part target file =>
      have hfails : Effect ⟨dir, name, received, .moving part target file⟩ files
          ⟨dir, name, received, .removing part file⟩ files :=
        effect_of_same h (fun e he => he) rfl (fun p hp => by cases hp)
          (fun hp => hp.elim nofun fun ⟨_, _, hp⟩ => by cases hp)
      cases ok with
      | true =>
        have hr : Incoming.renamed ⟨dir, name, received, .moving part target file⟩ files part
            target file (files.rename part target) = r := Option.some.inj hs
        cases hrename : files.rename part target with
        | none =>
          rw [hrename] at hr
          subst hr
          exact ⟨hfails, fun p hp => by cases hp⟩
        | some files' =>
          rw [hrename] at hr
          subst hr
          exact ⟨effect_rename h rfl hrename, fun p hp => by cases hp⟩
      | false =>
        obtain rfl := Option.some.inj hs
        exact ⟨hfails, fun p hp => by cases hp⟩
    | _ => cases hs
  | remove =>
    cases phase with
    | removing part file =>
      obtain rfl := Option.some.inj hs
      exact ⟨effect_remove h rfl, fun p hp => by cases hp⟩
    | _ => cases hs

/-! ## Every run -/

variable {s : Receiving δ}

theorem sound_act {i : Nat} {a : Act} {r : Directory (Place δ) × Incoming δ} (h : s.Sound)
    (ht : s.transfers[i]? = some t) (hclear : (Move.act i a).Clear s)
    (hs : t.step s.files a = some r) :
    Receiving.Sound { files := r.1, transfers := s.transfers.set i r.2 } := by
  have hfound := hclear t ht
  obtain ⟨heffect, hpending⟩ := effect_step (h.one i t ht) (fun p hp => (hfound p hp).1) hs
  have hlt : i < s.transfers.length := (List.getElem?_eq_some_iff.mp ht).1
  -- What the others are, and that they keep apart from the one that has moved.
  have hset (j : Nat) (u : Incoming δ) (hu : (s.transfers.set i r.2)[j]? = some u) :
      j = i ∧ u = r.2 ∨ j ≠ i ∧ s.transfers[j]? = some u := by
    by_cases hji : j = i
    · subst hji
      rw [List.getElem?_set_self hlt] at hu
      exact .inl ⟨rfl, (Option.some.inj hu).symm⟩
    · rw [List.getElem?_set_ne (Ne.symm hji)] at hu
      exact .inr ⟨hji, hu⟩
  have hapart (j : Nat) (u : Incoming δ) (hji : j ≠ i) (hu : s.transfers[j]? = some u) :
      r.2.Apart u := by
    have hold := h.apart i j t u ht hu (Ne.symm hji)
    have hsound := h.one j u hu
    refine ⟨fun e he f hf heq => ?_, fun p hp heq => ?_⟩
    · rcases heffect.own e he with ⟨g, hg, hge⟩ | hnew
      · exact hold.files g hg f hf (hge.trans heq)
      · have hknown := s.files.known f.1 f.2 (hsound.file f hf).1
        rw [← heq, hnew] at hknown
        exact Nat.lt_irrefl _ hknown
    · rcases hpending p hp with hp | hp
      · exact hold.pending p hp heq
      · exact (hfound p hp).2 u (List.mem_of_getElem? hu) heq
  refine ⟨fun j u hu => ?_, fun j k u v hu hv hjk => ?_⟩
  · rcases hset j u hu with ⟨rfl, rfl⟩ | ⟨hji, hu⟩
    · exact heffect.sound
    · have hsound := h.one j u hu
      have hold := h.apart i j t u ht hu (Ne.symm hji)
      refine ⟨fun e he => ?_, fun p hp => ?_, hsound.new⟩
      · obtain ⟨hname, hdata⟩ := hsound.file e he
        obtain ⟨hname', hdata'⟩ := heffect.others e.1 e.2 hname fun f hf => hold.files f hf e he
        exact ⟨hname', hdata'.trans hdata⟩
      · exact heffect.free p (hsound.pending p hp) fun heq => hold.pending p heq hp
  · rcases hset j u hu with ⟨hji, hur⟩ | ⟨hji, huold⟩
    · rcases hset k v hv with ⟨hki, -⟩ | ⟨hki, hvold⟩
      · exact absurd (hji.trans hki.symm) hjk
      · rw [hur]
        exact hapart k v hki hvold
    · rcases hset k v hv with ⟨-, hvr⟩ | ⟨-, hvold⟩
      · rw [hvr]
        exact (hapart j u hji huold).symm
      · exact h.apart j k u v huold hvold hjk

omit [DecidableEq δ] in
theorem sound_offered (files : Directory (Place δ)) (dir : δ) (name : List Char) :
    Incoming.Sound { dir, name, received := [], phase := .offered } files :=
  ⟨(fun e he => by cases he), (fun p hp => by cases hp), fun _ => rfl⟩

/-- **Each clear move** keeps what holds. -/
theorem Receiving.Sound.step {s' : Receiving δ} {m : Move δ} (h : s.Sound) (hclear : m.Clear s)
    (hs : s.step m = some s') : s'.Sound := by
  cases m with
  | act i a =>
    simp only [Receiving.step] at hs
    split at hs
    · cases hs
    · rename_i t ht
      obtain ⟨r, hr, rfl⟩ := Option.map_eq_some_iff.mp hs
      exact sound_act h ht hclear hr
  | offer dir name =>
    obtain rfl := Option.some.inj hs
    have hlast (j : Nat) (u : Incoming δ)
        (hu : (s.transfers ++ [⟨dir, name, [], .offered⟩])[j]? = some u) :
        s.transfers[j]? = some u ∨ u = ⟨dir, name, [], .offered⟩ ∧ j = s.transfers.length := by
      rw [List.getElem?_append] at hu
      split at hu
      · exact .inl hu
      · rename_i hj
        obtain ⟨hk, heq⟩ := List.getElem?_eq_some_iff.mp hu
        have hzero : j - s.transfers.length = 0 := Nat.lt_one_iff.mp hk
        refine .inr ⟨?_, by omega⟩
        rw [← heq]
        simp only [hzero, List.getElem_cons_zero]
    refine ⟨fun j u hu => ?_, fun j k u v hu hv hjk => ?_⟩
    · rcases hlast j u hu with hu | ⟨rfl, -⟩
      · exact h.one j u hu
      · exact sound_offered _ _ _
    · rcases hlast j u hu with hu | ⟨rfl, hj⟩
      · rcases hlast k v hv with hv | ⟨rfl, hk⟩
        · exact h.apart j k u v hu hv hjk
        · exact ⟨fun e _ f hf => (by cases hf), fun p _ heq => (by cases heq)⟩
      · rcases hlast k v hv with hv | ⟨rfl, hk⟩
        · exact ⟨fun e he => (by cases he), fun p hp => (by cases hp)⟩
        · exact absurd (hj.trans hk.symm) hjk

theorem Receiving.Sound.run {ms : List (Move δ)} {s' : Receiving δ} (h : s.Sound)
    (hclear : ClearRun s ms) (hrun : s.run ms = some s') : s'.Sound := by
  induction ms generalizing s with
  | nil =>
    obtain rfl := Option.some.inj hrun
    exact h
  | cons m ms ih =>
    obtain ⟨r, hr, hrest⟩ := Option.bind_eq_some_iff.mp hrun
    exact ih (h.step hclear.1 hr) (hclear.2 r hr) hrest

/-! ## No collision -/

/-- The `.part` into which the transfer writes. -/
def Incoming.writes (t : Incoming δ) : Option (Place δ × Nat) :=
  match t.phase with
  | .accepting part _ file => some (part, file)
  | .receiving part _ file => some (part, file)
  | _ => none

/-- **No collision**: two transfers have different `.part`s, the place to which a transfer is about
to rename has no file, and the path of a task that is done leads to what the transfer has
received. -/
structure Receiving.Safe (s : Receiving δ) : Prop where
  parts : ∀ (i j : Nat) (t u : Incoming δ), s.transfers[i]? = some t →
    s.transfers[j]? = some u → i ≠ j → ∀ e ∈ t.writes, ∀ f ∈ u.writes, e.1 ≠ f.1 ∧ e.2 ≠ f.2
  renames : ∀ t ∈ s.transfers, ∀ part target file, t.phase = .moving part target file →
    ¬s.files.Has target
  done : ∀ t ∈ s.transfers, ∀ path file, t.phase = .done path file →
    (s.files.names path).map s.files.data = some t.received

omit [DecidableEq δ] in
theorem file_of_writes {e : Place δ × Nat} (h : e ∈ t.writes) : e ∈ t.file? := by
  obtain ⟨dir, name, received, phase⟩ := t
  cases phase with
  | accepting part final file => exact h
  | receiving part final file => exact h
  | _ => cases h

omit [DecidableEq δ] in
theorem Receiving.Sound.safe (h : s.Sound) : s.Safe where
  parts i j t u ht hu hij e he f hf := by
    have hne := (h.apart i j t u ht hu hij).files e (file_of_writes he) f (file_of_writes hf)
    refine ⟨fun heq => hne ?_, hne⟩
    have hnames := ((h.one i t ht).file e (file_of_writes he)).1
    rw [heq, ((h.one j u hu).file f (file_of_writes hf)).1] at hnames
    exact (Option.some.inj hnames).symm
  renames t ht part target file hphase := by
    obtain ⟨i, hi⟩ := List.getElem?_of_mem ht
    exact not_has.mpr ((h.one i t hi).pending target (by rw [Incoming.pending, hphase]; rfl))
  done t ht path file hphase := by
    obtain ⟨i, hi⟩ := List.getElem?_of_mem ht
    obtain ⟨hname, hdata⟩ := (h.one i t hi).file (path, file) (by
      rw [Incoming.file?, hphase]
      rfl)
    rw [hname]
    exact congrArg some hdata

/-- **Without a race there is no collision**, whatever files there are at first. -/
theorem safe_of_clear_run (files : Directory (Place δ)) (ms : List (Move δ)) (s : Receiving δ)
    (hclear : ClearRun { files, transfers := [] } ms)
    (hrun : Receiving.run { files, transfers := [] } ms = some s) : s.Safe :=
  (Receiving.Sound.run ⟨fun i t ht => (by cases ht), fun i j t u ht => (by cases ht)⟩ hclear
    hrun).safe

/-! ## Two offers of one name -/

/-- No files. -/
def noFiles : Directory (Place Unit) :=
  { names := fun _ => none, data := fun _ => [], next := 0, known := fun _ _ h => by cases h }

/-- Two transfers of the same name, the second offered when the first has its `.part`. -/
def oneAfterTheOther : List (Move Unit) :=
  [.offer () ['a'], .act 0 (.reserve []), .act 0 (.create true), .act 0 (.accept true),
    .offer () ['a'], .act 1 (.reserve []), .act 1 (.create true), .act 1 (.accept true),
    .act 0 (.write [1]), .act 1 (.write [2]), .act 0 (.finish []), .act 0 (.rename true),
    .act 1 (.finish []), .act 1 (.rename true)]

theorem oneAfterTheOther_safe :
    ∃ s, Receiving.run { files := noFiles, transfers := [] } oneAfterTheOther = some s ∧
      s.transfers.map (fun t => t.phase) =
        [.done ((), ['a']) 0, .done ((), ['a', ' ', '(', '1', ')']) 1] ∧ s.Safe := by
  have hends : (Receiving.run { files := noFiles, transfers := [] } oneAfterTheOther).map
      (fun s => s.transfers.map fun t => t.phase) =
        some [.done ((), ['a']) 0, .done ((), ['a', ' ', '(', '1', ')']) 1] := by
    decide +kernel
  obtain ⟨s, hs, hphases⟩ := Option.map_eq_some_iff.mp hends
  exact ⟨s, hs, hphases, safe_of_clear_run noFiles oneAfterTheOther s (by decide +kernel) hs⟩

/-- Two offers of one name that come at once. -/
def twoAtOnce : List (Move Unit) :=
  [.offer () ['a'], .offer () ['a'], .act 0 (.reserve []), .act 1 (.reserve []),
    .act 0 (.create true), .act 1 (.create true), .act 0 (.accept true), .act 1 (.accept true)]

/-- What they receive then, and the end of the first. -/
def firstEnds : List (Move Unit) :=
  [.act 0 (.write [1]), .act 1 (.write [2]), .act 0 (.finish []), .act 0 (.rename true)]

/-- **Two offers of one name collide**: both transfers write to one `.part`, and the first is done
with a file in which there is what the second has received. -/
theorem twoOffers_collide :
    (∃ s, Receiving.run { files := noFiles, transfers := [] } twoAtOnce = some s ∧
      s.transfers.map (fun t => t.phase) =
        [.receiving ((), partName ['a']) ((), ['a']) 0,
          .receiving ((), partName ['a']) ((), ['a']) 0] ∧ ¬s.Safe) ∧
    ∃ s, Receiving.run { files := noFiles, transfers := [] } (twoAtOnce ++ firstEnds) = some s ∧
      s.transfers.map (fun t => t.received) = [[1], [2]] ∧ s.files.data 0 = [2] ∧ ¬s.Safe := by
  have hboth : (Receiving.run { files := noFiles, transfers := [] } twoAtOnce).map
      (fun s => s.transfers.map fun t => t.phase) =
        some [.receiving ((), partName ['a']) ((), ['a']) 0,
          .receiving ((), partName ['a']) ((), ['a']) 0] := by
    decide +kernel
  have hend : (Receiving.run { files := noFiles, transfers := [] } (twoAtOnce ++ firstEnds)).map
      (fun s => ((s.transfers.map fun t => t.received, s.files.data 0),
        (s.transfers.map fun t => t.phase).head?, s.files.names ((), ['a']))) =
          some (([[1], [2]], [2]), some (.done ((), ['a']) 0), some 0) := by
    decide +kernel
  constructor
  · obtain ⟨s, hs, hphases⟩ := Option.map_eq_some_iff.mp hboth
    refine ⟨s, hs, hphases, fun hsafe => ?_⟩
    obtain ⟨files, transfers⟩ := s
    match transfers, hphases with
    | [t, u], hphases =>
      have ht : t.phase = .receiving ((), partName ['a']) ((), ['a']) 0 := (List.cons.inj hphases).1
      have hu : u.phase = .receiving ((), partName ['a']) ((), ['a']) 0 :=
        (List.cons.inj (List.cons.inj hphases).2).1
      have ht' : ((((), partName ['a']) : Place Unit), 0) ∈ t.writes := by
        rw [Incoming.writes, ht]
        rfl
      have hu' : ((((), partName ['a']) : Place Unit), 0) ∈ u.writes := by
        rw [Incoming.writes, hu]
        rfl
      exact (hsafe.parts 0 1 t u rfl rfl (by decide) _ ht' _ hu').1 rfl
  · obtain ⟨s, hs, hall⟩ := Option.map_eq_some_iff.mp hend
    obtain ⟨hfirst, hsecond⟩ := Prod.mk.inj hall
    obtain ⟨hreceived, hdata⟩ := Prod.mk.inj hfirst
    obtain ⟨hphase, hname⟩ := Prod.mk.inj hsecond
    refine ⟨s, hs, hreceived, hdata, fun hsafe => ?_⟩
    obtain ⟨files, transfers⟩ := s
    match transfers, hreceived with
    | [t, u], hreceived =>
      have ht : t.received = [1] := (List.cons.inj hreceived).1
      have hdone := hsafe.done t (List.mem_cons_self ..) ((), ['a']) 0 (Option.some.inj hphase)
      rw [hname, Option.map_some, hdata, ht] at hdone
      exact absurd hdone (by decide)

end XferRust.Lan
