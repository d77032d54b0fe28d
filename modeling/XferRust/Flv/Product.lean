import XferRust.Flv.Recorder

/-! # The product of an FLV recording

While the recorder runs, what it has handed to the sink and what it holds back fit together: the
header is in one of the two as soon as the parser leaves out the next one.  Every event keeps this
that does not take the header away.
-/
namespace XferRust.Flv

/-- The recorder is in its loop. -/
def Phase.running : Phase → Bool
  | .looping | .connected _ => true
  | .idle | .leaving _ => false

namespace Recorder

/-! ## The invariant -/

/-- What is held back continues the product, and the parser knows whether the header is there. -/
inductive Laid (headerWritten : Bool) (product pendingOpen : List UInt8) : Prop
  | blank (hw : headerWritten = false) (hp : product = []) (ho : pendingOpen = [])
  | held (hw : headerWritten = true) (hp : product = []) (ho : IsFile pendingOpen)
  | written (hw : headerWritten = true) (hp : IsFile product) (ho : IsTags pendingOpen)

/-- The parser and what it has given out so far. -/
structure Reading (s : Recorder) : Prop where
  laid : Laid s.parser.headerWritten s.product s.pendingOpen
  started : s.parser.started = true → s.parser.headerWritten = true

structure Invariant (s : Recorder) : Prop where
  wellFormed : s.WellFormed
  reading : s.phase.running = true → s.Reading

variable {s : Recorder}

/-- A product that is only moved to another phase keeps what the parser and the sink agree on. -/
theorem Invariant.toPhase (h : s.Invariant) {phase : Phase}
    (hphase : phase.running = true → s.phase.running = true) : { s with phase }.Invariant :=
  ⟨h.wellFormed, fun hr => ⟨(h.reading (hphase hr)).laid, (h.reading (hphase hr)).started⟩⟩

theorem initial_invariant : initial.Invariant :=
  ⟨⟨.inl rfl, nofun⟩, nofun⟩

/-! ## Control file -/

theorem saveCtrl_wellFormed (h : s.WellFormed) : s.saveCtrl.WellFormed := by
  refine ⟨h.1, fun c hc => ?_⟩
  obtain rfl := Option.some.inj hc
  exact isBoundary_length h.1

theorem saveCtrl_invariant (h : s.Invariant) : s.saveCtrl.Invariant :=
  ⟨saveCtrl_wellFormed h.wellFormed, fun hr => ⟨(h.reading hr).laid, (h.reading hr).started⟩⟩

/-- What a start finds: a control file to take over, of which the product has enough, or one that
may stay behind because it stands for an empty product. -/
theorem start_invariant {sameStream : Bool} {diskLen : Nat} (h : s.Invariant)
    (hc : s.Harmless (.start sameStream diskLen)) : (s.start sameStream diskLen).Invariant := by
  unfold start
  dsimp only
  cases hres : s.resume sameStream diskLen with
  | none =>
    refine ⟨⟨.inl rfl, fun c hctrl => ?_⟩, fun _ => ⟨.blank rfl rfl rfl, nofun⟩⟩
    cases hc c hctrl with
    | inl hzero => exact .inl hzero
    | inr hacc =>
      -- an accepted control file would have been taken over
      have hkeep := Option.filter_eq_none_iff.mp hres c hctrl
      rw [hacc.1, Bool.true_and, decide_eq_true hacc.2] at hkeep
      exact absurd rfl hkeep
  | some c =>
    have hctrl : s.ctrl = some c := (Option.filter_eq_some_iff.mp hres).1
    obtain ⟨hcut, hbound⟩ := (h.wellFormed.2 c hctrl).take
    refine ⟨⟨?_, fun d hd => ?_⟩, fun _ => ⟨?_, nofun⟩⟩
    · cases hcut with
      | inl hcut => exact .inl hcut.2
      | inr hcut => exact .inr hcut.2
    · obtain rfl := Option.some.inj (hctrl.symm.trans hd)
      exact hbound
    · cases hcut with
      | inl hcut => exact .blank (decide_eq_false (by omega)) hcut.2 rfl
      | inr hcut => exact .written (decide_eq_true hcut.1) hcut.2 isTags_nil

/-! ## Connections -/

/-- A connection starts over; only a header that is held back would be lost with what is cleared. -/
theorem beginSegment_invariant (h : s.Invariant) (hc : s.product ≠ [] ∨ s.pendingOpen = []) :
    { s with parser := s.parser.beginSegment, pendingOpen := [] }.Invariant := by
  refine ⟨h.wellFormed, fun hr => ⟨?_, nofun⟩⟩
  cases (h.reading hr).laid with
  | blank hw hp ho => exact .blank hw hp rfl
  | held hw hp ho =>
    cases hc with
    | inl hc => exact absurd hp hc
    | inr hc =>
      have hlen := ho.length
      rw [hc] at hlen
      exact absurd hlen (by decide)
  | written hw hp ho => exact .written hw hp isTags_nil

theorem connect_invariant {reply : Reply} (h : s.Invariant) (hphase : s.phase = .looping)
    (hc : s.product ≠ [] ∨ s.pendingOpen = []) : (s.connect reply).Invariant := by
  have hbegin := beginSegment_invariant h hc
  have hrun : s.phase.running = true := by rw [hphase]; rfl
  unfold connect
  dsimp only
  cases reply with
  | retry => exact hbegin
  | fatal => exact hbegin.toPhase nofun
  | absent =>
    dsimp only
    split
    · exact ⟨hbegin.wellFormed, nofun⟩
    · exact ⟨hbegin.wellFormed, fun _ => ⟨(hbegin.reading hrun).laid, nofun⟩⟩
  | response declaredLen =>
    dsimp only
    split
    · exact ⟨hbegin.wellFormed, nofun⟩
    · exact ⟨hbegin.wellFormed, fun _ => ⟨(hbegin.reading hrun).laid, nofun⟩⟩

theorem endBody_invariant {declaredLen : Option Nat} (hw : s.WellFormed) (hr : s.Reading) :
    (s.endBody declaredLen).Invariant := by
  unfold endBody
  dsimp only
  split
  · exact ⟨hw, nofun⟩
  split
  · split
    · exact ⟨hw, nofun⟩
    · exact ⟨hw, fun _ => ⟨hr.laid, hr.started⟩⟩
  · exact ⟨hw, fun _ => ⟨hr.laid, hr.started⟩⟩

/-! ## Chunks -/

theorem parser_writeOut {buf : List UInt8} : (s.writeOut buf).parser = s.parser := by
  unfold writeOut
  split
  · rfl
  split
  · rfl
  · rfl

/-- **What is written out** keeps the product well formed, also when it takes along what was held
back. -/
theorem writeOut_keeps {hw : Bool} {buf : List UInt8} (h : s.WellFormed)
    (hlaid : Laid hw s.product s.pendingOpen) (hlater : hw = true → IsTags buf)
    (hfirst : hw = false → s.parser.headerWritten = false ∧ buf = [] ∨
      s.parser.headerWritten = true ∧ IsFile buf)
    (hkeep : hw = true → s.parser.headerWritten = true) :
    (s.writeOut buf).WellFormed ∧
      Laid (s.writeOut buf).parser.headerWritten (s.writeOut buf).product
        (s.writeOut buf).pendingOpen := by
  unfold writeOut
  by_cases hbuf : buf = []
  · rw [if_pos hbuf]
    refine ⟨h, ?_⟩
    cases hlaid with
    | blank hw' hp ho =>
      cases hfirst hw' with
      | inl hnone => exact .blank hnone.1 hp ho
      | inr hfile =>
        have hlen := hfile.2.length
        rw [hbuf] at hlen
        exact absurd hlen (by decide)
    | held hw' hp ho => exact .held (hkeep hw') hp ho
    | written hw' hp ho => exact .written (hkeep hw') hp ho
  rw [if_neg hbuf]
  -- together with what is held back, the chunk continues the product
  have hall : s.parser.headerWritten = true ∧ IsFile (s.product ++ (s.pendingOpen ++ buf)) ∧
      (s.product = [] ∧ IsFile (s.pendingOpen ++ buf) ∨
        IsFile s.product ∧ IsTags (s.pendingOpen ++ buf)) := by
    cases hlaid with
    | blank hw' hp ho =>
      cases hfirst hw' with
      | inl hnone => exact absurd hnone.2 hbuf
      | inr hfile =>
        rw [hp, ho, List.nil_append]
        exact ⟨hfile.1, hfile.2, .inl ⟨rfl, hfile.2⟩⟩
    | held hw' hp ho =>
      have hfile := ho.append (hlater hw')
      rw [hp, List.nil_append]
      exact ⟨hkeep hw', hfile, .inl ⟨rfl, hfile⟩⟩
    | written hw' hp ho =>
      have htags := ho.append (hlater hw')
      exact ⟨hkeep hw', hp.append htags, .inr ⟨hp, htags⟩⟩
  obtain ⟨hheader, hfile, hparts⟩ := hall
  split
  · rw [← List.append_assoc] at hfile
    refine ⟨?_, .written hheader hfile isTags_nil⟩
    refine ⟨.inr hfile, fun c hc => ?_⟩
    show IsBoundary (s.product ++ s.pendingOpen ++ buf) c.bytes
    rw [List.append_assoc]
    refine (h.2 c hc).append fun hne => ?_
    cases hparts with
    | inl hparts => exact absurd hparts.1 hne
    | inr hparts => exact hparts.2
  · refine ⟨h, ?_⟩
    cases hparts with
    | inl hparts => exact .held hheader hparts.1 hparts.2
    | inr hparts => exact .written hheader hparts.1 hparts.2

theorem chunk_invariant {declaredLen : Option Nat} {data : List UInt8} (h : s.Invariant)
    (hphase : s.phase = .connected declaredLen) (hc : s.Harmless (.chunk data)) :
    (s.chunk declaredLen data).Invariant := by
  obtain ⟨hgood, hflv⟩ := hc
  have hread := h.reading (by rw [hphase]; rfl)
  unfold chunk
  dsimp only
  cases hfeed : s.parser.feed data with
  | none =>
    dsimp only
    split
    · exact ⟨h.wellFormed, nofun⟩
    rename_i hkeep
    obtain ⟨hnot, hlen⟩ := FlvStream.feed_eq_none hfeed
    have hp : s.product ≠ [] := by
      intro hp
      cases hflv with
      | inl hne => exact hne hp
      | inr hflv =>
        cases hflv with
        | inl hres => exact hkeep ⟨hp, by rw [hres]; exact Bool.false_ne_true⟩
        | inr hflv =>
          cases hflv with
          | inl hstarted => exact Bool.false_ne_true (hnot.symm.trans hstarted)
          | inr hne => exact hne hlen
    refine endBody_invariant h.wellFormed ⟨?_, nofun⟩
    cases hread.laid with
    | blank hw hp' ho => exact absurd hp' hp
    | held hw hp' ho => exact absurd hp' hp
    | written hw hp' ho => exact .written rfl hp' ho
  | some out =>
    obtain ⟨parser, buf⟩ := out
    obtain ⟨hstarted, hlater, hfirst⟩ := FlvStream.feed_spec hread.started hgood hfeed
    dsimp only
    split
    · exact ⟨h.wellFormed, nofun⟩
    obtain ⟨hwell, hlaid⟩ := writeOut_keeps
      (s := { s with runBytes := s.runBytes + data.length, parser }) h.wellFormed hread.laid
      (fun hw => (hlater hw).2) hfirst (fun hw => (hlater hw).1)
    have hsame : ({ s with runBytes := s.runBytes + data.length, parser }.writeOut buf).parser =
        parser := parser_writeOut
    have hreading : ({ s with runBytes := s.runBytes + data.length, parser }.writeOut buf).Reading :=
      ⟨hlaid, by rw [hsame]; exact hstarted⟩
    split
    · exact endBody_invariant hwell hreading
    · exact ⟨hwell, fun _ => hreading⟩

/-! ## Steps and runs -/

theorem finish_invariant {exit : Exit} {flushed : Bool} (h : s.Invariant) :
    (s.finish exit flushed).Invariant := by
  have hidle : { s with phase := .idle }.Invariant := h.toPhase nofun
  have hsave := saveCtrl_invariant hidle
  have hdrop : { s with phase := .idle, ctrl := none }.Invariant := ⟨⟨h.wellFormed.1, nofun⟩, nofun⟩
  unfold finish
  dsimp only
  cases exit with
  | failed =>
    dsimp only
    split
    · exact hsave
    · exact hidle
  | cancelled => exact hsave
  | ended | stalled | gone =>
    dsimp only
    split
    · exact hsave
    split
    · exact hidle
    · exact hdrop

/-- **One step** that breaks nothing keeps the invariant. -/
theorem step_invariant (s : Recorder) (e : Event) (s' : Recorder) (h : s.Invariant)
    (hc : s.Harmless e) (hstep : step s e = some s') : s'.Invariant := by
  cases e with
  | start sameStream diskLen =>
    obtain ⟨-, ⟨⟩⟩ := Option.ite_none_right_eq_some.mp hstep
    exact start_invariant h hc
  | cancel =>
    rw [step] at hstep
    split at hstep
    · cases hstep
      exact h.toPhase nofun
    · cases hstep
      exact h.toPhase nofun
    · cases hstep
  | stall =>
    obtain ⟨-, ⟨⟩⟩ := Option.ite_none_right_eq_some.mp hstep
    exact h.toPhase nofun
  | save =>
    obtain ⟨-, ⟨⟩⟩ := Option.ite_none_right_eq_some.mp hstep
    have hsave := saveCtrl_invariant h
    exact ⟨hsave.wellFormed, fun hr => ⟨(h.reading hr).laid, (h.reading hr).started⟩⟩
  | connect reply =>
    obtain ⟨hphase, ⟨⟩⟩ := Option.ite_none_right_eq_some.mp hstep
    exact connect_invariant h hphase hc
  | chunk data =>
    rw [step] at hstep
    split at hstep
    · rename_i declaredLen hphase
      obtain ⟨-, hs⟩ := Option.ite_none_left_eq_some.mp hstep
      obtain rfl := Option.some.inj hs
      exact chunk_invariant h hphase hc
    · cases hstep
  | disconnect fatal =>
    rw [step] at hstep
    split at hstep
    · rename_i declaredLen hphase
      obtain rfl := Option.some.inj hstep
      split
      · exact h.toPhase nofun
      · exact endBody_invariant h.wellFormed (h.reading (by rw [hphase]; rfl))
    · cases hstep
  | finish flushed =>
    rw [step] at hstep
    split at hstep
    · cases hstep
      exact finish_invariant h
    · cases hstep
  | quit =>
    obtain ⟨-, ⟨⟩⟩ := Option.ite_none_left_eq_some.mp hstep
    exact h.toPhase nofun

/-- **An FLV recording is well formed**, in every state of every run whose steps break nothing:
the product is one header and whole tags, and the control file keeps a tag boundary of it. -/
theorem run_wellFormed {es : List Event} (h : StepRun.Along step Harmless initial es) :
    StepRun.Everywhere step WellFormed initial es :=
  StepRun.everywhere_of_along (fun _ h => h.wellFormed) step_invariant initial_invariant h

/-! ## A connection that ends before its first media tag -/

def flvHeader : List UInt8 := [70, 76, 86, 1, 5, 0, 0, 0, 9, 0, 0, 0, 0]

/-- A script tag without data. -/
def scriptTag : List UInt8 := [18, 0, 0, 0, 0, 0, 0, 0, 0, 0, 0, 0, 0, 0, 11]

/-- A video tag without data. -/
def videoTag : List UInt8 := [9, 0, 0, 0, 0, 0, 0, 0, 0, 0, 0, 0, 0, 0, 11]

/-- The first connection ends after its script tag, the second one goes on to a video tag. -/
def cutBeforeMedia : List Event :=
  [.start true 0, .connect (.response none), .chunk (flvHeader ++ scriptTag), .disconnect false,
    .connect (.response none), .chunk (flvHeader ++ videoTag)]

/-- The header was only held back when its connection ended; it is not written again. -/
theorem cutBeforeMedia_header_lost :
    ∃ t, StepRun.run step initial cutBeforeMedia = some t ∧ t.product = videoTag ∧ ¬ t.WellFormed := by
  have hrun : (StepRun.run step initial cutBeforeMedia).map (·.product) = some videoTag := by
    decide +kernel
  obtain ⟨t, ht, hproduct⟩ := Option.map_eq_some_iff.mp hrun
  refine ⟨t, ht, hproduct, fun h => ?_⟩
  rw [WellFormed, hproduct] at h
  cases h.1 with
  | inl hnone => exact absurd hnone (by decide)
  | inr hfile => exact absurd hfile.letters (by decide)

/-- A run through a pause and a reconnection, in which the first media tag always arrives; the last
connection is a replay. -/
theorem paused_recording_wellFormed :
    StepRun.Everywhere step WellFormed initial
      [.start true 0, .connect (.response none), .chunk (flvHeader ++ scriptTag), .chunk videoTag,
        .disconnect false, .save, .connect .absent, .connect (.response none), .cancel, .finish true,
        .start true 43, .connect (.response none), .chunk (flvHeader ++ videoTag), .finish true] :=
  run_wellFormed (by decide +kernel)

end Recorder
end XferRust.Flv
