import XferRust.Playlist.Text

/-! # When the parsers of playlists are safe

A text is read without a panic exactly if, line by line, no cut is made inside a character and no
sum is larger than a word: addresses are cut behind five bytes and vectors behind two, the number of
the next segment and the end of a range are sums, and the area of a variant is a product
(`parsesSafely_iff`).  Neither the cuts nor the sums are guarded, so a line in another script, or
numbers chosen for it, are enough (`unsafe_texts`).
-/
namespace XferRust.Playlist

open StepRun Utf8Slice

/-- A text that is longer than `n` bytes has a boundary there. -/
def Cut (n : Nat) (l : List Char) : Prop := n < byteLen l → Boundary n l

instance (n : Nat) (l : List Char) : Decidable (Cut n l) :=
  inferInstanceAs (Decidable (_ → _))

section

variable {join : String → Option String} {millisOf : List Char → Nat}

theorem headIs_isSome_iff {n : Nat} {head : String} {l : List Char} :
    (headIs n head l).isSome = true ↔ Cut n l := by
  by_cases h : n < byteLen l
  · rw [headIs, if_pos h, Option.isSome_map, sliceTo_isSome_iff]
    exact ⟨fun hb _ => hb, fun hc => hc h⟩
  · rw [headIs, if_neg h]
    exact iff_of_true rfl fun hn => absurd hn h

/-- What follows a cut does not panic. -/
theorem isSome_bind_of {α β : Type} {o : Option α} {f : α → Option β}
    (h : ∀ x, (f x).isSome = true) : (o >>= f).isSome = o.isSome := by
  cases o with
  | none => rfl
  | some x => exact h x

theorem resolveUrl_isSome_iff {uri : List Char} :
    (resolveUrl join uri).isSome = true ↔ Cut 5 (trim uri) := by
  rw [resolveUrl]
  by_cases hnil : trim uri = []
  · rw [if_pos hnil, hnil]
    exact iff_of_true rfl fun h => absurd h (Nat.not_lt_zero 5)
  · rw [if_neg hnil, isSome_bind_of, headIs_isSome_iff]
    intro inline
    split
    · rfl
    · split
      · rfl
      · rfl

theorem parseIv_isSome_iff {v : List Char} : (parseIv v).isSome = true ↔ Cut 2 (trim v) := by
  rw [parseIv, isSome_bind_of, headIs_isSome_iff]
  intro marked
  dsimp only
  generalize trim (if marked then (trim v).drop 2 else trim v) = hex
  split
  · rfl
  · rfl

/-! ## Media playlists -/

/-- The cuts of a line are at boundaries. -/
def RawLine.Cuts (join : String → Option String) : RawLine → Prop
  | .plain _ => True
  | .key uri iv _ _ => Cut 5 (trim uri) ∧
      ((resolveUrl join uri).join.isSome = true → ∀ v ∈ iv, Cut 2 (trim v))
  | .map uri _ => Cut 5 (trim uri)
  | .part uri _ => Cut 5 (trim uri)
  | .address uri => Cut 5 (trim uri)

instance (l : RawLine) : Decidable (l.Cuts join) := by
  cases l with
  | plain l => exact instDecidableTrue
  | key uri iv method keyFormat => exact inferInstanceAs (Decidable (_ ∧ _))
  | map uri range => exact inferInstanceAs (Decidable (Cut _ _))
  | part uri millis => exact inferInstanceAs (Decidable (Cut _ _))
  | address uri => exact inferInstanceAs (Decidable (Cut _ _))

theorem RawLine.read_isSome_iff {l : RawLine} : (l.read join).isSome = true ↔ l.Cuts join := by
  cases l with
  | plain l => exact iff_of_true rfl trivial
  | key uri iv method keyFormat =>
    rw [Cuts, ← @resolveUrl_isSome_iff join, read]
    cases hr : resolveUrl join uri with
    | none => exact iff_of_false Bool.false_ne_true fun h => Bool.false_ne_true h.1
    | some r =>
      cases r with
      | none => exact iff_of_true rfl ⟨rfl, fun h => absurd h Bool.false_ne_true⟩
      | some url =>
        cases iv with
        | none => exact iff_of_true rfl ⟨rfl, fun _ v hv => by cases hv⟩
        | some v =>
          have hiv := parseIv_isSome_iff (v := v)
          cases hp : parseIv v with
          | none =>
            rw [hp] at hiv
            refine iff_of_false ?_ fun h => ?_
            · show ¬ (Option.isSome (parseIv v >>= _)) = true
              rw [hp]
              exact Bool.false_ne_true
            · exact Bool.false_ne_true (hiv.mpr (h.2 rfl v rfl))
          | some o =>
            rw [hp] at hiv
            refine iff_of_true ?_ ⟨rfl, fun _ w hw => Option.some.inj hw ▸ hiv.mp rfl⟩
            show (Option.isSome (parseIv v >>= _)) = true
            rw [hp]
            cases o with
            | none => rfl
            | some bytes => rfl
  | map uri range =>
    rw [Cuts, ← @resolveUrl_isSome_iff join, read, isSome_bind_of]
    intro r
    cases r with
    | none => rfl
    | some url =>
      dsimp only
      cases range with
      | none => rfl
      | some v =>
        dsimp only
        cases parseByterange v with
        | none => rfl
        | some w => rfl
  | part uri millis =>
    rw [Cuts, ← @resolveUrl_isSome_iff join, read, isSome_bind_of]
    intro r
    cases r with
    | none => rfl
    | some url => rfl
  | address uri =>
    rw [Cuts, ← @resolveUrl_isSome_iff join, read, isSome_bind_of]
    intro r
    cases r with
    | none => rfl
    | some url => rfl

/-- The last byte of the range of an initialisation segment is a 64-bit number; the loop does not
look at it. -/
def Line.MapFits : Line → Prop
  | .map _ (some r) => (rangeEnd r).isSome = true
  | _ => True

/-- The last byte of every range is a 64-bit number. -/
def RangesFit (segs : List Segment) : Prop := ∀ seg ∈ segs, ∀ r ∈ seg.range, (rangeEnd r).isSome

instance (segs : List Segment) : Decidable (RangesFit segs) :=
  inferInstanceAs (Decidable (∀ _ ∈ segs, ∀ _ ∈ _, _))

/-- The initialisation segment and the segments. -/
def MediaParser.shown (m : MediaParser) : List Segment := m.init.toList ++ m.segments

/-- Between two lines: the initialisation segment in use is one of the segments, and a part is
asked for as a whole. -/
structure MediaParser.Sane (m : MediaParser) : Prop where
  fresh : m.currentMap = none → m.init = none
  shown : ∀ seg ∈ m.currentMap, seg ∈ m.shown
  parts : ∀ seg ∈ m.parts, seg.range = none

namespace MediaParser

theorem sane_empty : ({} : MediaParser).Sane where
  fresh _ := rfl
  shown _ h := by cases h
  parts _ h := by cases h

/-- What a line with an initialisation segment changes. -/
theorem addMap_cases {m : MediaParser} (h : m.Sane) (url : String) (range : Option (Nat × Nat)) :
    (m.addMap url range = m ∧ ∃ seg ∈ m.shown, seg.range = range) ∨
    ∃ seg, seg.range = range ∧ (m.addMap url range).currentMap = some seg ∧
      (m.addMap url range).parts = m.parts ∧
      ∀ x, x ∈ (m.addMap url range).shown ↔ x ∈ m.shown ∨ x = seg := by
  unfold addMap
  dsimp only
  cases hmap : m.currentMap with
  | none =>
    refine .inr ⟨_, rfl, rfl, rfl, fun x => ?_⟩
    show x ∈ [_] ++ m.segments ↔ x ∈ m.init.toList ++ m.segments ∨ _
    rw [h.fresh hmap, List.singleton_append, List.mem_cons, Option.toList_none, List.nil_append]
    exact or_comm
  | some prev =>
    by_cases hsame : prev.url = url ∧ prev.range = range
    · exact .inl ⟨if_pos hsame, prev, h.shown prev hmap, hsame.2⟩
    · dsimp only
      rw [if_neg hsame]
      refine .inr ⟨_, rfl, rfl, rfl, fun x => ?_⟩
      show x ∈ m.init.toList ++ (m.segments ++ [_]) ↔ x ∈ m.init.toList ++ m.segments ∨ _
      rw [← List.append_assoc, List.mem_append, List.mem_singleton]

theorem Sane.line {m : MediaParser} (h : m.Sane) (l : Line) : (m.line l).Sane := by
  have hmore (segs : List Segment) : m.shown ⊆ m.init.toList ++ (m.segments ++ segs) := by
    rw [← List.append_assoc]
    exact List.subset_append_left _ _
  cases l with
  | map url range =>
    obtain ⟨hm, -⟩ | ⟨seg, -, hcur, hparts, hshown⟩ := addMap_cases h url range
    · rw [show m.line (.map url range) = m from hm]
      exact h
    · refine ⟨fun hn => ?_, fun x hx => ?_, fun x hx => h.parts x (hparts ▸ hx)⟩
      · exact absurd (hcur.symm.trans hn) (Option.some_ne_none seg)
      · obtain rfl : x = seg := (Option.some.inj (hcur.symm.trans hx)).symm
        exact (hshown x).mpr (.inr rfl)
  | part url millis =>
    refine ⟨h.fresh, h.shown, fun seg hseg => ?_⟩
    obtain hold | hnew := List.mem_append.mp hseg
    · exact h.parts seg hold
    · rw [List.mem_singleton.mp hnew]
  | uri url =>
    show (m.addUri url).Sane
    unfold addUri
    split
    · exact ⟨h.fresh, h.shown, h.parts⟩
    · exact ⟨h.fresh, fun seg hseg => hmore _ (h.shown seg hseg), h.parts⟩
  | _ => exact ⟨h.fresh, h.shown, h.parts⟩

theorem rangesFit_cons_iff {segs segs' : List Segment} {seg : Segment}
    (h : ∀ x, x ∈ segs' ↔ x ∈ segs ∨ x = seg) :
    RangesFit segs' ↔ RangesFit segs ∧ ∀ r ∈ seg.range, (rangeEnd r).isSome := by
  constructor
  · intro hfit
    exact ⟨fun x hx => hfit x ((h x).mpr (.inl hx)), hfit seg ((h seg).mpr (.inr rfl))⟩
  · rintro ⟨hsegs, hseg⟩ x hx
    obtain hx | rfl := (h x).mp hx
    · exact hsegs x hx
    · exact hseg

/-- **Only the range of an initialisation segment** can make the ranges too large once the sums of
a line were none. -/
theorem rangesFit_line {m : MediaParser} (h : m.Sane) {l : Line} (hfit : m.fits l = true) :
    RangesFit (m.line l).shown ↔ RangesFit m.shown ∧ l.MapFits := by
  cases l with
  | map url range =>
    have hrange : (∀ r ∈ range, (rangeEnd r).isSome = true) ↔ (Line.map url range).MapFits := by
      cases range with
      | none => exact iff_of_true (fun r hr => by cases hr) trivial
      | some r => exact ⟨fun hr => hr r rfl, fun hr r' hr' => Option.some.inj hr' ▸ hr⟩
    obtain ⟨hm, seg, hseg, hsame⟩ | ⟨seg, hsame, -, -, hshown⟩ := addMap_cases h url range
    · rw [show m.line (.map url range) = m from hm]
      exact ⟨fun hr => ⟨hr, hrange.mp (hsame ▸ hr seg hseg)⟩, And.left⟩
    · rw [← hrange, ← hsame]
      exact rangesFit_cons_iff (hsame.symm ▸ hshown)
  | uri url =>
    show RangesFit (m.addUri url).shown ↔ _ ∧ True
    rw [and_true]
    unfold addUri
    split
    · exact Iff.rfl
    · next hgap =>
      have hshown (seg x : Segment) :
          x ∈ m.init.toList ++ (m.segments ++ [seg]) ↔ x ∈ m.shown ∨ x = seg := by
        rw [← List.append_assoc, List.mem_append, List.mem_singleton, shown]
      rw [shown, rangesFit_cons_iff (hshown _)]
      refine and_iff_left fun r hr => ?_
      obtain ⟨nr, hnr, rfl⟩ := Option.map_eq_some_iff.mp hr
      have hsum : m.rangeStart url nr.2 + nr.1 < wordSize := by
        have := (Bool.and_eq_true_iff.mp hfit).2
        rw [hnr, eq_false_of_ne_true hgap] at this
        exact of_decide_eq_true this
      rw [rangeEnd, if_pos (by dsimp only; omega)]
      rfl
  | _ => exact (and_true _).symm ▸ Iff.rfl

end MediaParser

/-- A line of a media playlist that is cut between characters, and whose sums are numbers. -/
def MediaFits (join : String → Option String) (millisOf : List Char → Nat) (m : MediaParser)
    (raw : List Char) : Prop :=
  trim raw ≠ [] → (scanLine millisOf (trim raw)).Cuts join ∧
    ∀ l ∈ (scanLine millisOf (trim raw)).read join, m.fits l = true ∧ l.MapFits

variable {m : MediaParser} {raw : List Char}

/-- What a line that gets through does. -/
theorem mediaStep_cases {m' : MediaParser} (h : mediaStep join millisOf m raw = some m') :
    m' = m ∨ ∃ l, (scanLine millisOf (trim raw)).read join = some l ∧ m.fits l = true ∧
      m' = m.line l := by
  unfold mediaStep at h
  dsimp only at h
  by_cases hnil : trim raw = []
  · rw [if_pos hnil] at h
    exact .inl (Option.some.inj h).symm
  · rw [if_neg hnil] at h
    obtain ⟨l, hl, h⟩ := Option.bind_eq_some_iff.mp h
    by_cases hfit : m.fits l = true
    · rw [if_pos hfit] at h
      exact .inr ⟨l, hl, hfit, (Option.some.inj h).symm⟩
    · rw [if_neg hfit] at h
      cases h

theorem mediaStep_fits_iff (hm : m.Sane) (hr : RangesFit m.shown) :
    (∃ m', mediaStep join millisOf m raw = some m' ∧ RangesFit m'.shown) ↔
      MediaFits join millisOf m raw := by
  unfold mediaStep MediaFits
  dsimp only
  by_cases hnil : trim raw = []
  · rw [if_pos hnil]
    exact iff_of_true ⟨m, rfl, hr⟩ fun hne => absurd hnil hne
  · rw [if_neg hnil, ← RawLine.read_isSome_iff]
    cases hread : (scanLine millisOf (trim raw)).read join with
    | none =>
      refine iff_of_false ?_ fun h => Bool.false_ne_true (h hnil).1
      rintro ⟨m', h, -⟩
      cases h
    | some l =>
      show (∃ m', (if m.fits l then some (m.line l) else none) = some m' ∧ _) ↔ _
      by_cases hfit : m.fits l = true
      · rw [if_pos hfit]
        constructor
        · rintro ⟨m', h, hr'⟩ -
          obtain rfl := Option.some.inj h
          refine ⟨rfl, fun l' hl' => ?_⟩
          obtain rfl := Option.some.inj hl'
          exact ⟨hfit, ((MediaParser.rangesFit_line hm hfit).mp hr').2⟩
        · intro h
          exact ⟨_, rfl, (MediaParser.rangesFit_line hm hfit).mpr ⟨hr, ((h hnil).2 l rfl).2⟩⟩
      · rw [if_neg hfit]
        refine iff_of_false ?_ fun h => hfit ((h hnil).2 l rfl).1
        rintro ⟨m', h, -⟩
        cases h

/-- Every range of the segments is 64-bit exactly if every range of the lines behind them was. -/
theorem rangesFit_result_iff (h : m.Sane) : RangesFit m.result ↔ RangesFit m.shown := by
  unfold MediaParser.result MediaParser.shown
  by_cases hparts : (m.segments.isEmpty && !m.parts.isEmpty) = true
  · rw [if_pos hparts, List.isEmpty_iff.mp (Bool.and_eq_true_iff.mp hparts).1, List.append_nil]
    constructor
    · intro hfit seg hseg
      exact hfit seg (List.mem_append_left _ hseg)
    · intro hfit seg hseg r hr
      obtain hinit | hpart := List.mem_append.mp hseg
      · exact hfit seg hinit r hr
      · rw [h.parts seg hpart] at hr
        cases hr
  · rw [if_neg hparts]

theorem parseMediaText_fits_iff {text : List Char} :
    (∃ m, parseMediaText join millisOf text = some m ∧ RangesFit m.result) ↔
      Along (mediaStep join millisOf) (MediaFits join millisOf) {} (textLines text) := by
  have hkeep (m : MediaParser) (raw : List Char) (m' : MediaParser) (hm : m.Sane)
      (h : mediaStep join millisOf m raw = some m') : m'.Sane := by
    obtain rfl | ⟨l, -, -, rfl⟩ := mediaStep_cases h
    · exact hm
    · exact hm.line l
  have hback (m : MediaParser) (raw : List Char) (m' : MediaParser) (hm : m.Sane)
      (h : mediaStep join millisOf m raw = some m') (hr : RangesFit m'.shown) :
      RangesFit m.shown := by
    obtain rfl | ⟨l, -, hfit, rfl⟩ := mediaStep_cases h
    · exact hr
    · exact ((MediaParser.rangesFit_line hm hfit).mp hr).1
  have hstep := fun m raw hm hr => @mediaStep_fits_iff join millisOf m raw hm hr
  have hrun := @exists_run_iff_along _ _ _ _ _ _ hkeep hback hstep {} (textLines text)
    MediaParser.sane_empty
  constructor
  · rintro ⟨m, hm, hr⟩
    have hsane := run_invariant (P := fun _ _ => True) (fun m raw m' h _ => hkeep m raw m' h)
      MediaParser.sane_empty (along_of_forall fun _ _ => trivial) hm
    exact (hrun.mp ⟨m, hm, (rangesFit_result_iff hsane).mp hr⟩).2
  · intro hes
    obtain ⟨m, hm, hr⟩ := hrun.mpr ⟨(fun seg hseg => by cases hseg), hes⟩
    have hsane := run_invariant (P := fun _ _ => True) (fun m raw m' h _ => hkeep m raw m' h)
      MediaParser.sane_empty (along_of_forall fun _ _ => trivial) hm
    exact ⟨m, hm, (rangesFit_result_iff hsane).mpr hr⟩

/-! ## Master playlists -/

/-- The address of a rendition is cut only when its kind and its group are named. -/
def RenditionFits (rest : List Char) : Prop :=
  let attrs := parseAttributes rest
  upper (trim ((attr attrs "TYPE").getD [])) ≠ [] → (attrText attrs "GROUP-ID").getD "" ≠ "" →
    ∀ uri ∈ attr attrs "URI", Cut 5 (trim uri)

/-- The area of a variant is a 64-bit number. -/
def AreaFits (rest : List Char) : Prop :=
  ∀ r ∈ resolution (parseAttributes rest), r.1 * r.2 < wordSize

/-- A line of a master playlist that is cut between characters, and whose product is a number. -/
def MasterFits (m : MasterParser) (raw : List Char) : Prop :=
  trim raw ≠ [] →
    match stripTag "#EXT-X-MEDIA:" (trim raw) with
    | some rest => RenditionFits rest
    | none =>
      match stripTag "#EXT-X-STREAM-INF:" (trim raw) with
      | some rest => AreaFits rest
      | none => (trim raw).head? ≠ some '#' → m.pending.isSome = true → Cut 5 (trim (trim raw))

namespace MasterParser

theorem addRendition_isSome_iff {m : MasterParser} {rest : List Char} :
    (m.addRendition join rest).isSome = true ↔ RenditionFits rest := by
  unfold addRendition RenditionFits
  dsimp only
  by_cases hnamed : String.ofList (upper (trim ((attr (parseAttributes rest) "TYPE").getD []))) = ""
      ∨ (attrText (parseAttributes rest) "GROUP-ID").getD "" = ""
  · rw [if_pos hnamed]
    refine iff_of_true rfl fun hkind hgroup => ?_
    obtain h | h := hnamed
    · exact absurd (by rw [← String.toList_ofList (l := upper _), h]; rfl) hkind
    · exact absurd h hgroup
  · rw [if_neg hnamed]
    obtain ⟨hkind, hgroup⟩ := not_or.mp hnamed
    have hkind' : upper (trim ((attr (parseAttributes rest) "TYPE").getD [])) ≠ [] := by
      intro h
      rw [h] at hkind
      exact hkind rfl
    cases attr (parseAttributes rest) "URI" with
    | none => exact iff_of_true rfl fun _ _ u hu => by cases hu
    | some u =>
      dsimp only
      rw [isSome_bind_of fun _ => rfl, resolveUrl_isSome_iff]
      exact ⟨fun h _ _ v hv => Option.some.inj hv ▸ h, fun h => h hkind' hgroup u rfl⟩

theorem addStream_isSome_iff {m : MasterParser} {rest : List Char} :
    (m.addStream rest).isSome = true ↔ AreaFits rest := by
  unfold addStream AreaFits
  dsimp only
  cases resolution (parseAttributes rest) with
  | none => exact iff_of_true rfl fun r hr => by cases hr
  | some r =>
    dsimp only
    by_cases harea : r.1 * r.2 < wordSize
    · rw [if_pos harea]
      exact iff_of_true rfl fun r' hr' => Option.some.inj hr' ▸ harea
    · rw [if_neg harea]
      exact iff_of_false Bool.false_ne_true fun h => harea (h r rfl)

theorem addVariant_isSome_iff {m : MasterParser} {line : List Char} :
    (m.addVariant join line).isSome = true ↔ (m.pending.isSome = true → Cut 5 (trim line)) := by
  unfold addVariant
  cases m.pending with
  | none => exact iff_of_true rfl fun h => absurd h Bool.false_ne_true
  | some p =>
    dsimp only
    rw [isSome_bind_of, resolveUrl_isSome_iff]
    · exact ⟨fun h _ => h, fun h => h rfl⟩
    · intro r
      cases r with
      | none => rfl
      | some url => rfl

end MasterParser

theorem masterStep_isSome_iff {m : MasterParser} :
    (masterStep join m raw).isSome = true ↔ MasterFits m raw := by
  unfold masterStep MasterFits
  dsimp only
  by_cases hnil : trim raw = []
  · rw [if_pos hnil]
    exact iff_of_true rfl fun h => absurd hnil h
  · rw [if_neg hnil]
    refine Iff.trans ?_ (forall_prop_of_true hnil).symm
    cases stripTag "#EXT-X-MEDIA:" (trim raw) with
    | some rest => exact MasterParser.addRendition_isSome_iff
    | none =>
      dsimp only
      cases stripTag "#EXT-X-STREAM-INF:" (trim raw) with
      | some rest => exact MasterParser.addStream_isSome_iff
      | none =>
        dsimp only
        by_cases htag : (trim raw).head? = some '#'
        · rw [if_pos htag]
          exact iff_of_true rfl fun h => absurd htag h
        · rw [if_neg htag, MasterParser.addVariant_isSome_iff]
          exact ⟨fun h _ => h, fun h => h htag⟩

/-! ## The whole text -/

/-- Neither reading the text, in whatever way, nor the ranges of its segments panic. -/
def ParsesSafely (join : String → Option String) (millisOf : List Char → Nat) (text : List Char) :
    Prop :=
  (parseMaster join text).isSome = true ∧
    ∃ m, parseMediaText join millisOf text = some m ∧ RangesFit m.result

instance (text : List Char) : Decidable (ParsesSafely join millisOf text) :=
  decidable_of_iff ((parseMaster join text).isSome = true ∧
      (parseMediaText join millisOf text).any (fun m => decide (RangesFit m.result)) = true) <|
    and_congr_right fun _ => by
      rw [Option.any_eq_true]
      exact exists_congr fun m => and_congr_right fun _ => decide_eq_true_iff

variable (join millisOf)

/-- **A text is read safely exactly if every line of it can be.** -/
theorem parsesSafely_iff (text : List Char) :
    ParsesSafely join millisOf text ↔
      Along (masterStep join) MasterFits {} (textLines text) ∧
        Along (mediaStep join millisOf) (MediaFits join millisOf) {} (textLines text) :=
  and_congr (run_isSome_iff fun _ _ => masterStep_isSome_iff) parseMediaText_fits_iff

end

/-- The texts that panic: an address and a vector that are cut inside a character, an area, a range,
a number and the range of an initialisation segment that are too large. -/
theorem unsafe_texts :
    let safe (text : String) :=
      ParsesSafely (fun uri => some ("https://host/" ++ uri)) (fun _ => 0) text.toList
    ¬ safe "#EXTM3U\na中文" ∧
    ¬ safe "#EXTM3U\n#EXT-X-KEY:METHOD=AES-128,URI=\"k\",IV=中\ns.ts" ∧
    ¬ safe "#EXTM3U\n#EXT-X-STREAM-INF:RESOLUTION=4294967296x4294967296\nv.m3u8" ∧
    ¬ safe "#EXTM3U\n#EXT-X-BYTERANGE:18446744073709551615@1\ns.ts" ∧
    ¬ safe "#EXTM3U\n#EXT-X-MEDIA-SEQUENCE:18446744073709551615\ns.ts" ∧
    ¬ safe "#EXTM3U\n#EXT-X-MAP:URI=\"i\",BYTERANGE=\"18446744073709551615@2\"\ns.ts" := by
  decide +kernel

end XferRust.Playlist
