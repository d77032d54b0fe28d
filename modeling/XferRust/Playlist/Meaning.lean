import XferRust.Playlist.ParseSafety

/-! # What a media playlist means

Every address of a media playlist is a segment with a number of its own.  What belongs to it stands
between it and the address before it (its duration, its byte range, whether it is a gap), or holds
until it is replaced (its key); a byte range without an offset goes on where the segment before it
ended.  This is read off the lines before the address here, without a state (`entries`,
`segmentsOf`).

The loop of `parse_media` carries a state instead, and the two agree on every well-formed playlist
but for the offsets: the loop forgets the range of a gap, so a segment without an offset behind one
is looked for at another place, and an offset that is the greatest number is read as none
(`reads_iff`, `offset_behind_gap`).
-/
namespace XferRust.Playlist

open StepRun Utf8Slice

/-! ## The lines of a text -/

def Line.isUri : Line → Bool
  | .uri _ => true
  | _ => false

/-- The number of the first segment. -/
def Line.startsAt : Line → Option Nat
  | .mediaSequence n => some n
  | _ => none

def Line.keyOf : Line → Option (Option PendingKey)
  | .key k => some k
  | _ => none

def Line.duration : Line → Option Nat
  | .extinf millis => some millis
  | _ => none

def Line.isPart : Line → Bool
  | .part _ _ => true
  | _ => false

def Line.isFatal : Line → Bool
  | .fatal _ => true
  | _ => false

/-- Length and offset. -/
def Line.rangeOf : Line → Option (Nat × Option Nat)
  | .byteRange len off => some (len, off)
  | _ => none

section

variable (join : String → Option String) (millisOf : List Char → Nat)

/-- The lines that are not empty, in order. -/
def linesOf (text : List Char) : List Line :=
  (textLines text).filterMap fun raw =>
    if trim raw = [] then none else (scanLine millisOf (trim raw)).read join

end

/-! ## Segments -/

/-- An address with what belongs to it. -/
structure Entry where
  url : String
  seq : Nat
  gap : Bool
  millis : Nat
  /-- Length and offset, as they are written. -/
  range : Option (Nat × Option Nat)
  key : Option PendingKey

section

variable (start : Nat)

/-- The address behind the lines `before`, the latest first. -/
def entryAt (before : List Line) (url : String) : Entry :=
  let own := before.takeWhile fun l => !l.isUri
  { url
    seq := start + before.countP Line.isUri
    gap := own.any fun l => decide (l = .gap)
    millis := (own.findSome? Line.duration).getD 0
    range := own.findSome? Line.rangeOf
    key := (before.findSome? Line.keyOf).join }

/-- The addresses of the lines that follow `before`. -/
def entries : List Line → List Line → List Entry
  | _, [] => []
  | before, .uri url :: rest => entryAt start before url :: entries (.uri url :: before) rest
  | before, l :: rest => entries (l :: before) rest

end

namespace Entry

/-- Offset and length, behind a segment that ends at `last`. -/
def span (e : Entry) (last : Nat) : Option (Nat × Nat) := e.range.map fun r => (r.2.getD last, r.1)

def segment (e : Entry) (range : Option (Nat × Nat)) : Segment where
  url := e.url
  range := range
  key := e.key.map (·.resolve e.seq)
  size := range.map Prod.snd
  millis := e.millis
  seq := e.seq

end Entry

/-- Where a range ends. -/
def endOf (range : Option (Nat × Nat)) : Nat := (range.map fun r => r.1 + r.2).getD 0

/-- **The segments that are not gaps**, behind one that ends at `last`. -/
def segmentsOf : Nat → List Entry → List Segment
  | _, [] => []
  | last, e :: es =>
    (if e.gap then [] else [e.segment (e.span last)]) ++ segmentsOf (endOf (e.span last)) es

/-! ## Well-formed playlists -/

/-- The number of the first segment is given at most once, and before every address. -/
def SequenceFirst : List Line → Prop :=
  List.Pairwise fun a b => (a.isUri || a.startsAt.isSome) = true → b.startsAt = none

/-- An offset is left out only behind a range of the same resource. -/
def Contiguous : Option Entry → List Entry → Prop
  | _, [] => True
  | prev, e :: es =>
    (∀ r ∈ e.range, r.2 = none → ∃ p ∈ prev, p.url = e.url ∧ p.range.isSome = true) ∧
      Contiguous (some e) es

section

variable (join : String → Option String) (millisOf : List Char → Nat)

/-- The addresses of a text. -/
def entriesOf (text : List Char) : List Entry :=
  let lines := linesOf join millisOf text
  entries ((lines.findSome? Line.startsAt).getD 0) [] lines

/-- **Well-formed text.** -/
structure WellFormed (text : List Char) : Prop where
  /-- Addresses and vectors are cut between characters, as those in ASCII are. -/
  ascii : ∀ raw ∈ textLines text, trim raw ≠ [] → (scanLine millisOf (trim raw)).Cuts join
  /-- No line is refused. -/
  accepted : ∀ l ∈ linesOf join millisOf text, l.isFatal = false
  sequenceFirst : SequenceFirst (linesOf join millisOf text)
  contiguous : Contiguous none (entriesOf join millisOf text)
  /-- The numbers of the segments are 64-bit. -/
  numbers : ∀ e ∈ entriesOf join millisOf text, e.seq + 1 < wordSize
  /-- The ranges are 64-bit. -/
  sizes : ∀ seg ∈ segmentsOf 0 (entriesOf join millisOf text), ∀ r ∈ seg.range, r.1 + r.2 < wordSize
  /-- Where there are parts, there are whole segments too. -/
  whole : (∃ l ∈ linesOf join millisOf text, l.isPart = true) →
    segmentsOf 0 (entriesOf join millisOf text) ≠ []

instance decidableContiguous : ∀ prev es, Decidable (Contiguous prev es)
  | _, [] => isTrue trivial
  | prev, e :: es =>
    have := decidableContiguous (some e) es
    inferInstanceAs (Decidable ((∀ r ∈ e.range, r.2 = none → ∃ p ∈ prev, _) ∧ _))

instance (text : List Char) : Decidable (WellFormed join millisOf text) :=
  have : Decidable (SequenceFirst (linesOf join millisOf text)) :=
    inferInstanceAs (Decidable (List.Pairwise _ _))
  decidable_of_iff
    ((∀ raw ∈ textLines text, trim raw ≠ [] → (scanLine millisOf (trim raw)).Cuts join) ∧
      (∀ l ∈ linesOf join millisOf text, l.isFatal = false) ∧
      SequenceFirst (linesOf join millisOf text) ∧
      Contiguous none (entriesOf join millisOf text) ∧
      (∀ e ∈ entriesOf join millisOf text, e.seq + 1 < wordSize) ∧
      (∀ seg ∈ segmentsOf 0 (entriesOf join millisOf text), ∀ r ∈ seg.range,
        r.1 + r.2 < wordSize) ∧
      ((∃ l ∈ linesOf join millisOf text, l.isPart = true) →
        segmentsOf 0 (entriesOf join millisOf text) ≠ []))
    ⟨fun ⟨h₁, h₂, h₃, h₄, h₅, h₆, h₇⟩ => ⟨h₁, h₂, h₃, h₄, h₅, h₆, h₇⟩,
      fun ⟨h₁, h₂, h₃, h₄, h₅, h₆, h₇⟩ => ⟨h₁, h₂, h₃, h₄, h₅, h₆, h₇⟩⟩

/-- **The text is read as what it means**: its segments, without the initialisation segments among
them, are the addresses that are not gaps. -/
def Reads (text : List Char) : Prop :=
  ∃ m, parseMediaText join millisOf text = some m ∧ m.fatal = none ∧
    m.result.filter (fun seg => !seg.isMap) = segmentsOf 0 (entriesOf join millisOf text)

instance (text : List Char) : Decidable (Reads join millisOf text) :=
  decidable_of_iff ((parseMediaText join millisOf text).any (fun m => decide (m.fatal = none ∧
      m.result.filter (fun seg => !seg.isMap) = segmentsOf 0 (entriesOf join millisOf text))) =
      true) <| by
    rw [Option.any_eq_true]
    exact exists_congr fun m => and_congr_right fun _ => decide_eq_true_iff

end

/-- Where a range of `url` goes on, behind the end that was kept. -/
def carried (kept : Option (String × Nat)) (url : String) : Nat :=
  match kept with
  | some (u, last) => if u = url then last else 0
  | none => 0

/-- **The offsets that are found.**  Of a segment that is no gap: left out directly behind a gap,
the offset is where the last range before the gap ended; and an offset that is the greatest number
is so as well. -/
def Known : Option Entry → Nat → Option (String × Nat) → List Entry → Prop
  | _, _, _, [] => True
  | prev, last, kept, e :: es =>
    (e.gap = false → ∀ r ∈ e.range,
      (r.2 = none → (∃ p ∈ prev, p.gap = true) → carried kept e.url = last) ∧
      (r.2 = some noOffset → carried kept e.url = noOffset)) ∧
    Known (some e) (endOf (e.span last))
      (if e.gap then kept else ((e.span last).map fun r => (e.url, r.1 + r.2)).or kept) es

instance decidableKnown : ∀ prev last kept es, Decidable (Known prev last kept es)
  | _, _, _, [] => isTrue trivial
  | prev, last, kept, e :: es =>
    have hrest := decidableKnown (some e) (endOf (e.span last))
      (if e.gap then kept else ((e.span last).map fun r => (e.url, r.1 + r.2)).or kept) es
    have hfirst : Decidable (e.gap = false → ∀ r ∈ e.range,
        (r.2 = none → (∃ p ∈ prev, p.gap = true) → carried kept e.url = last) ∧
        (r.2 = some noOffset → carried kept e.url = noOffset)) := inferInstance
    @instDecidableAnd _ _ hfirst hrest

/-! ## The loop over the lines -/

/-- One line that was read, with its sums. -/
def lineStep (m : MediaParser) (l : Line) : Option MediaParser :=
  if m.fits l then some (m.line l) else none

/-- The segments so far, without the initialisation segments among them. -/
def MediaParser.media (m : MediaParser) : List Segment := m.segments.filter fun seg => !seg.isMap

/-- The segment of an address that is no gap. -/
def MediaParser.here (m : MediaParser) (url : String) : Segment :=
  let range := m.nextRange.map fun r => (m.rangeStart url r.2, r.1)
  { url, range, key := m.key.map (·.resolve m.sequence), size := range.map Prod.snd,
    millis := m.nextMillis, seq := m.sequence }

/-- What the loop carries is what the lines `before` say. -/
structure Tracks (before : List Line) (m : MediaParser) : Prop where
  key : m.key = (before.findSome? Line.keyOf).join
  millis : m.nextMillis =
    ((before.takeWhile fun l => !l.isUri).findSome? Line.duration).getD 0
  range : m.nextRange =
    ((before.takeWhile fun l => !l.isUri).findSome? Line.rangeOf).map fun r =>
      (r.1, r.2.getD noOffset)
  gap : m.nextIsGap = (before.takeWhile fun l => !l.isUri).any fun l => decide (l = .gap)

section

variable {before rest : List Line} {m m' : MediaParser} {l : Line} {start : Nat}

theorem tracks_empty : Tracks [] {} := ⟨rfl, rfl, rfl, rfl⟩

/-- A line without an address is noted where it belongs. -/
theorem Tracks.other (h : Tracks before m) (hl : l.isUri = false) :
    Tracks (l :: before) (m.line l) := by
  have hown : (l :: before).takeWhile (fun l => !l.isUri) =
      l :: before.takeWhile fun l => !l.isUri :=
    List.takeWhile_cons_of_pos (by rw [hl]; rfl)
  cases l with
  | uri url => cases hl
  | map url range =>
    have hsame : Tracks (.map url range :: before) m :=
      ⟨h.key, (by rw [hown]; exact h.millis), (by rw [hown]; exact h.range),
        (by rw [hown]; exact h.gap)⟩
    show Tracks _ (m.addMap url range)
    unfold MediaParser.addMap
    dsimp only
    split
    · split
      · exact hsame
      · exact ⟨hsame.key, hsame.millis, hsame.range, hsame.gap⟩
    · exact ⟨hsame.key, hsame.millis, hsame.range, hsame.gap⟩
  | key k =>
    exact ⟨rfl, (by rw [hown]; exact h.millis), (by rw [hown]; exact h.range),
      (by rw [hown]; exact h.gap)⟩
  | extinf millis =>
    exact ⟨h.key, (by rw [hown]; rfl), (by rw [hown]; exact h.range), (by rw [hown]; exact h.gap)⟩
  | byteRange len off =>
    exact ⟨h.key, (by rw [hown]; exact h.millis), (by rw [hown]; rfl), (by rw [hown]; exact h.gap)⟩
  | gap =>
    exact ⟨h.key, (by rw [hown]; exact h.millis), (by rw [hown]; exact h.range), (by rw [hown]; rfl)⟩
  | _ =>
    exact ⟨h.key, (by rw [hown]; exact h.millis), (by rw [hown]; exact h.range),
      (by rw [hown]; exact h.gap)⟩

/-- Behind an address nothing is kept but the key. -/
theorem Tracks.uri (h : Tracks before m) (url : String) :
    Tracks (.uri url :: before) (m.line (.uri url)) := by
  have hnext : (m.addUri url).key = m.key ∧ (m.addUri url).nextMillis = 0 ∧
      (m.addUri url).nextRange = none ∧ (m.addUri url).nextIsGap = false := by
    unfold MediaParser.addUri
    split
    · exact ⟨rfl, rfl, rfl, rfl⟩
    · next hgap => exact ⟨rfl, rfl, rfl, eq_false_of_ne_true hgap⟩
  exact ⟨hnext.1.trans h.key, hnext.2.1, hnext.2.2.1, hnext.2.2.2⟩

/-- A line without an address adds no segment but an initialisation segment. -/
theorem line_quiet (hl : l.isUri = false) :
    (m.line l).media = m.media ∧ (m.line l).lastRangeEnd = m.lastRangeEnd ∧ m.fits l = true ∧
      (m.line l).sequence = l.startsAt.getD m.sequence := by
  cases l with
  | uri url => cases hl
  | map url range =>
    show (m.addMap url range).media = _ ∧ (m.addMap url range).lastRangeEnd = _ ∧ _ ∧
      (m.addMap url range).sequence = _
    unfold MediaParser.addMap
    dsimp only
    split
    · split
      · exact ⟨rfl, rfl, rfl, rfl⟩
      · refine ⟨?_, rfl, rfl, rfl⟩
        show (m.segments ++ [_]).filter _ = _
        rw [List.filter_append]
        exact List.append_nil _
    · exact ⟨rfl, rfl, rfl, rfl⟩
  | _ => exact ⟨rfl, rfl, rfl, rfl⟩

theorem addUri_of_not_gap (hgap : m.nextIsGap = false) (url : String) :
    (m.addUri url).media = m.media ++ [m.here url] ∧
      (m.addUri url).lastRangeEnd =
        ((m.here url).range.map fun r => (url, r.1 + r.2)).or m.lastRangeEnd ∧
      (m.addUri url).sequence = m.sequence + 1 := by
  unfold MediaParser.addUri
  rw [if_neg (ne_true_of_eq_false hgap)]
  refine ⟨?_, rfl, rfl⟩
  show (m.segments ++ [m.here url]).filter _ = _
  rw [List.filter_append]
  rfl

theorem addUri_of_gap (hgap : m.nextIsGap = true) (url : String) :
    (m.addUri url).media = m.media ∧ (m.addUri url).lastRangeEnd = m.lastRangeEnd ∧
      (m.addUri url).sequence = m.sequence + 1 := by
  unfold MediaParser.addUri
  rw [if_pos hgap]
  exact ⟨rfl, rfl, rfl⟩

theorem entries_other (hl : l.isUri = false) :
    entries start before (l :: rest) = entries start (l :: before) rest := by
  cases l with
  | uri url => cases hl
  | _ => rfl

/-- A run only adds segments. -/
theorem media_append_of_run {lines : List Line} (h : run lineStep m lines = some m') :
    ∃ more, m'.media = m.media ++ more := by
  have hstep (u : MediaParser) (l : Line) (u' : MediaParser)
      (hu : ∃ more, u.media = m.media ++ more) (he : lineStep u l = some u') :
      ∃ more, u'.media = m.media ++ more := by
    obtain ⟨more, hmore⟩ := hu
    unfold lineStep at he
    split at he
    · obtain rfl := Option.some.inj he
      cases hl : l.isUri with
      | false => exact ⟨more, (line_quiet hl).1.trans hmore⟩
      | true =>
        cases l with
        | uri url =>
          cases hgap : u.nextIsGap with
          | true => exact ⟨more, (addUri_of_gap hgap url).1.trans hmore⟩
          | false =>
            refine ⟨more ++ [u.here url], (addUri_of_not_gap hgap url).1.trans ?_⟩
            rw [hmore, List.append_assoc]
        | _ => cases hl
    · cases he
  exact run_invariant (P := fun _ _ => True) (fun u l u' hu _ => hstep u l u' hu)
    ⟨[], (List.append_nil _).symm⟩ (along_of_forall fun _ _ => trivial) h

variable {e : Entry} {prev : Option Entry} {last : Nat} {kept : Option (String × Nat)}
  {es : List Entry}

/-- Where the range of a segment starts, for the loop and for the text: **exactly where the offset
is known**. -/
theorem start_eq_iff {r : Nat × Option Nat} (hkept : m.lastRangeEnd = kept)
    (hlink : ∀ p ∈ prev, p.gap = false → p.range.isSome = true → kept = some (p.url, last))
    (hcont : r.2 = none → ∃ p ∈ prev, p.url = e.url ∧ p.range.isSome = true) :
    m.rangeStart e.url (r.2.getD noOffset) = r.2.getD last ↔
      (r.2 = none → (∃ p ∈ prev, p.gap = true) → carried kept e.url = last) ∧
      (r.2 = some noOffset → carried kept e.url = noOffset) := by
  have hcarried : m.rangeStart e.url noOffset = carried kept e.url := by
    rw [MediaParser.rangeStart, if_pos rfl, hkept]
    rfl
  cases hoff : r.2 with
  | none =>
    rw [Option.getD_none, Option.getD_none, hcarried]
    constructor
    · exact fun h => ⟨fun _ _ => h, nofun⟩
    · rintro ⟨hgap, -⟩
      obtain ⟨p, hp, hurl, hrange⟩ := hcont hoff
      cases hpg : p.gap with
      | true => exact hgap rfl ⟨p, hp, hpg⟩
      | false =>
        rw [hlink p hp hpg hrange, carried, if_pos hurl]
  | some off =>
    rw [Option.getD_some, Option.getD_some]
    by_cases hmax : off = noOffset
    · rw [hmax, hcarried]
      exact ⟨fun h => ⟨nofun, fun _ => h⟩, fun h => h.2 rfl⟩
    · rw [MediaParser.rangeStart, if_neg hmax]
      exact iff_of_true rfl ⟨nofun, fun h => absurd (Option.some.inj h) hmax⟩

theorem segmentsOf_cons_of_gap (h : e.gap = true) :
    segmentsOf last (e :: es) = segmentsOf (endOf (e.span last)) es := by
  rw [segmentsOf, if_pos h, List.nil_append]

theorem segmentsOf_cons_of_not_gap (h : e.gap = false) :
    segmentsOf last (e :: es) =
      e.segment (e.span last) :: segmentsOf (endOf (e.span last)) es := by
  rw [segmentsOf, if_neg (ne_true_of_eq_false h), List.singleton_append]

theorem known_cons_of_gap (h : e.gap = true) :
    Known prev last kept (e :: es) ↔ Known (some e) (endOf (e.span last)) kept es := by
  rw [Known, if_pos h]
  exact and_iff_right fun hg => absurd (h.symm.trans hg) Bool.noConfusion

theorem known_cons_of_not_gap (h : e.gap = false) :
    Known prev last kept (e :: es) ↔
      (∀ r ∈ e.range, (r.2 = none → (∃ p ∈ prev, p.gap = true) → carried kept e.url = last) ∧
        (r.2 = some noOffset → carried kept e.url = noOffset)) ∧
      Known (some e) (endOf (e.span last))
        (((e.span last).map fun r => (e.url, r.1 + r.2)).or kept) es := by
  rw [Known, if_neg (ne_true_of_eq_false h)]
  exact and_congr_left fun _ => ⟨fun hk => hk h, fun hk _ => hk⟩

/-- The state of the loop between the lines `before` and `rest`: `prev` is the address before, which
ends at `last`, and `kept` what is kept of the last range that was no gap. -/
structure Meets (start : Nat) (before : List Line) (m : MediaParser) (prev : Option Entry)
    (last : Nat) (kept : Option (String × Nat)) (rest : List Line) : Prop where
  tracks : Tracks before m
  first : SequenceFirst rest
  sequence : start + before.countP Line.isUri = (rest.findSome? Line.startsAt).getD m.sequence
  kept_eq : m.lastRangeEnd = kept
  link : ∀ p ∈ prev, p.gap = false → p.range.isSome = true → kept = some (p.url, last)
  contiguous : Contiguous prev (entries start before rest)
  numbers : ∀ e ∈ entries start before rest, e.seq + 1 < wordSize
  sizes : ∀ seg ∈ segmentsOf last (entries start before rest), ∀ r ∈ seg.range,
    r.1 + r.2 < wordSize

namespace Meets

variable {prev : Option Entry} {last : Nat} {kept : Option (String × Nat)} {url : String}

theorem other (h : Meets start before m prev last kept (l :: rest)) (hl : l.isUri = false) :
    Meets start (l :: before) (m.line l) prev last kept rest := by
  obtain ⟨-, hkept, -, hseq⟩ := line_quiet (m := m) hl
  have hentries := @entries_other before rest l start hl
  obtain ⟨hpair, hfirst⟩ := List.pairwise_cons.mp h.first
  have hsequence := h.sequence
  refine ⟨h.tracks.other hl, hfirst, ?_, hkept.trans h.kept_eq, h.link, hentries ▸ h.contiguous,
    hentries ▸ h.numbers, hentries ▸ h.sizes⟩
  rw [List.countP_cons_of_neg (ne_true_of_eq_false hl), hsequence, hseq, List.findSome?_cons]
  cases hstart : l.startsAt with
  | none => rfl
  | some n =>
    have hnone : rest.findSome? Line.startsAt = none :=
      List.findSome?_eq_none_iff.mpr fun l' hl' => hpair l' hl' (by rw [hstart, hl]; rfl)
    rw [hnone]
    rfl

/-- What the loop has at an address is what belongs to it. -/
theorem at_uri (h : Meets start before m prev last kept (.uri url :: rest)) :
    rest.findSome? Line.startsAt = none ∧ m.sequence = (entryAt start before url).seq ∧
      m.nextIsGap = (entryAt start before url).gap ∧
      m.here url = (entryAt start before url).segment
        ((entryAt start before url).range.map fun r =>
          (m.rangeStart url (r.2.getD noOffset), r.1)) := by
  have hnone : rest.findSome? Line.startsAt = none :=
    List.findSome?_eq_none_iff.mpr fun l' hl' => (List.pairwise_cons.mp h.first).1 l' hl' rfl
  have hseq : m.sequence = (entryAt start before url).seq := by
    have hlines : (Line.uri url :: rest).findSome? Line.startsAt = none := hnone
    have hsum := h.sequence
    rw [hlines] at hsum
    exact hsum.symm
  refine ⟨hnone, hseq, h.tracks.gap, ?_⟩
  rw [MediaParser.here, h.tracks.range, Option.map_map, hseq, h.tracks.key, h.tracks.millis]
  rfl

theorem uri (h : Meets start before m prev last kept (.uri url :: rest))
    {kept' : Option (String × Nat)} (hkept' : (m.line (.uri url)).lastRangeEnd = kept')
    (hlink : (entryAt start before url).gap = false →
      (entryAt start before url).range.isSome = true →
        kept' = some (url, endOf ((entryAt start before url).span last))) :
    Meets start (.uri url :: before) (m.line (.uri url)) (some (entryAt start before url))
      (endOf ((entryAt start before url).span last)) kept' rest where
  tracks := h.tracks.uri url
  first := (List.pairwise_cons.mp h.first).2
  sequence := by
    obtain ⟨hnone, hseq, -, -⟩ := h.at_uri
    have hnext : (m.line (.uri url)).sequence = m.sequence + 1 := by
      cases hgap : m.nextIsGap with
      | true => exact (addUri_of_gap hgap url).2.2
      | false => exact (addUri_of_not_gap hgap url).2.2
    rw [List.countP_cons_of_pos rfl, hnone, hnext, hseq]
    rfl
  kept_eq := hkept'
  link p hp hgap hrange := by
    obtain rfl := Option.some.inj hp
    exact hlink hgap hrange
  contiguous := h.contiguous.2
  numbers e he := h.numbers e (List.mem_cons_of_mem _ he)
  sizes seg hseg := h.sizes seg (List.mem_append_right _ hseg)

/-- The segment of an address is the one that it means exactly where its offset is known. -/
theorem here_eq_iff (h : Meets start before m prev last kept (.uri url :: rest)) :
    m.here url = (entryAt start before url).segment ((entryAt start before url).span last) ↔
      ∀ r ∈ (entryAt start before url).range,
        (r.2 = none → (∃ p ∈ prev, p.gap = true) → carried kept url = last) ∧
        (r.2 = some noOffset → carried kept url = noOffset) := by
  obtain ⟨-, -, -, hhere⟩ := h.at_uri
  have hcont := h.contiguous.1
  rw [hhere]
  unfold Entry.span
  cases hrange : (entryAt start before url).range with
  | none => exact iff_of_true rfl fun r hr => by cases hr
  | some r =>
    rw [hrange] at hcont
    have hstart := start_eq_iff (e := entryAt start before url) h.kept_eq h.link
      (fun hoff => hcont r rfl hoff)
    constructor
    · intro hseg r' hr'
      obtain rfl := Option.some.inj hr'
      exact hstart.mp (Prod.mk.inj (Option.some.inj (congrArg Segment.range hseg))).1
    · intro hknown
      rw [Option.map_some, Option.map_some]
      exact congrArg (fun o => Entry.segment _ (some (o, r.1))) (hstart.mpr (hknown r rfl))

/-- Where the segment is the right one, its sums are numbers. -/
theorem fits (h : Meets start before m prev last kept (.uri url :: rest))
    (hgap : (entryAt start before url).gap = false)
    (hhere : m.here url = (entryAt start before url).segment ((entryAt start before url).span last)) :
    m.fits (.uri url) = true := by
  obtain ⟨-, hseq, -, -⟩ := h.at_uri
  have hnum := h.numbers (entryAt start before url) List.mem_cons_self
  have hsize : ∀ r ∈ (m.here url).range, r.1 + r.2 < wordSize := by
    refine h.sizes (m.here url) ?_
    rw [hhere]
    show _ ∈ (if _ then _ else _) ++ _
    rw [if_neg (ne_true_of_eq_false hgap)]
    exact List.mem_append_left _ List.mem_cons_self
  refine Bool.and_eq_true_iff.mpr ⟨decide_eq_true (hseq ▸ hnum), ?_⟩
  refine Bool.or_eq_true_iff.mpr (.inr ?_)
  cases hrange : m.nextRange with
  | none => rfl
  | some r => exact decide_eq_true (hsize _ (by rw [MediaParser.here, hrange]; rfl))

/-- Behind a gap the loop goes on with what it kept. -/
theorem gap (h : Meets start before m prev last kept (.uri url :: rest))
    (hgap : (entryAt start before url).gap = true) :
    Meets start (.uri url :: before) (m.line (.uri url)) (some (entryAt start before url))
        (endOf ((entryAt start before url).span last)) kept rest ∧
      m.fits (.uri url) = true ∧ (m.line (.uri url)).media = m.media := by
  obtain ⟨-, hseq, hgapEq, -⟩ := h.at_uri
  obtain ⟨hmedia, hkept, -⟩ := addUri_of_gap (hgapEq.trans hgap) url
  refine ⟨h.uri (hkept.trans h.kept_eq) fun hg => ?_, ?_, hmedia⟩
  · rw [hgap] at hg
    cases hg
  · exact Bool.and_eq_true_iff.mpr ⟨decide_eq_true (hseq ▸ h.numbers _ List.mem_cons_self),
      Bool.or_eq_true_iff.mpr (.inl (hgapEq.trans hgap))⟩

/-- Behind a segment with the right range the loop keeps that range. -/
theorem plain (h : Meets start before m prev last kept (.uri url :: rest))
    (hgap : (entryAt start before url).gap = false)
    (hhere : m.here url =
      (entryAt start before url).segment ((entryAt start before url).span last)) :
    Meets start (.uri url :: before) (m.line (.uri url)) (some (entryAt start before url))
      (endOf ((entryAt start before url).span last))
      ((((entryAt start before url).span last).map fun r => (url, r.1 + r.2)).or kept) rest := by
  obtain ⟨-, -, hgapEq, -⟩ := h.at_uri
  obtain ⟨-, hkept, -⟩ := addUri_of_not_gap (hgapEq.trans hgap) url
  refine h.uri (hkept.trans ?_) fun _ hrange => ?_
  · rw [hhere, h.kept_eq]
    rfl
  · obtain ⟨r, hr⟩ := Option.isSome_iff_exists.mp hrange
    rw [Entry.span, hr]
    rfl

/-- **The loop adds the segments that the rest of the lines means** exactly if every offset is
known. -/
theorem run_iff (h : Meets start before m prev last kept rest) :
    (∃ t, run lineStep m rest = some t ∧
        t.media = m.media ++ segmentsOf last (entries start before rest)) ↔
      Known prev last kept (entries start before rest) := by
  induction rest generalizing before m prev last kept with
  | nil => exact iff_of_true ⟨m, rfl, (List.append_nil _).symm⟩ trivial
  | cons l rest ih =>
    cases hl : l.isUri with
    | false =>
      obtain ⟨hmedia, -, hfit, -⟩ := line_quiet (m := m) hl
      rw [entries_other hl, ← ih (h.other hl), hmedia, run_cons, lineStep, if_pos hfit,
        Option.bind_some]
    | true =>
      cases l with
      | uri url =>
        rw [show entries start before (.uri url :: rest) =
          entryAt start before url :: entries start (.uri url :: before) rest from rfl]
        cases hgap : (entryAt start before url).gap with
        | true =>
          obtain ⟨hnext, hfit, hmedia⟩ := h.gap hgap
          rw [segmentsOf_cons_of_gap hgap, known_cons_of_gap hgap, ← ih hnext, hmedia, run_cons,
            lineStep, if_pos hfit, Option.bind_some]
        | false =>
          rw [segmentsOf_cons_of_not_gap hgap, known_cons_of_not_gap hgap,
            show (entryAt start before url).url = url from rfl, ← h.here_eq_iff]
          obtain ⟨-, -, hgapEq, -⟩ := h.at_uri
          have hmedia : (m.line (.uri url)).media = m.media ++ [m.here url] :=
            (addUri_of_not_gap (hgapEq.trans hgap) url).1
          constructor
          · rintro ⟨t, ht, htm⟩
            obtain ⟨u, hu, hrun⟩ := run_cons_eq_some.mp ht
            obtain rfl : m.line (.uri url) = u := by
              unfold lineStep at hu
              split at hu
              · exact Option.some.inj hu
              · cases hu
            -- what the loop adds is never taken back, so this segment is the first of them
            obtain ⟨more, hmore⟩ := media_append_of_run hrun
            rw [hmedia, List.append_assoc] at hmore
            have hhere := (List.cons.inj (List.append_cancel_left (hmore.symm.trans htm))).1
            refine ⟨hhere, (ih (h.plain hgap hhere)).mp ⟨t, hrun, ?_⟩⟩
            rw [htm, hmedia, hhere, List.append_assoc]
            rfl
          · rintro ⟨hhere, hrest⟩
            obtain ⟨t, hrun, htm⟩ := (ih (h.plain hgap hhere)).mpr hrest
            refine ⟨t, run_cons_eq_some.mpr ⟨_, if_pos (h.fits hgap hhere), hrun⟩, ?_⟩
            rw [htm, hmedia, hhere, List.append_assoc]
            rfl
      | _ => cases hl

end Meets

/-- However its range is read, an address that is no gap is a segment. -/
theorem length_media_of_run (h : Tracks before m) (hrun : run lineStep m rest = some m') :
    m'.media.length =
      m.media.length + (segmentsOf last (entries start before rest)).length := by
  induction rest generalizing before m last with
  | nil => exact congrArg (fun u => u.media.length) (Option.some.inj hrun).symm
  | cons l rest ih =>
    obtain ⟨u, hu, hrun⟩ := run_cons_eq_some.mp hrun
    obtain rfl : m.line l = u := by
      unfold lineStep at hu
      split at hu
      · exact Option.some.inj hu
      · cases hu
    cases hl : l.isUri with
    | false =>
      rw [entries_other hl, ih (h.other hl) hrun, (line_quiet hl).1]
    | true =>
      cases l with
      | uri url =>
        have hgapEq : m.nextIsGap = (entryAt start before url).gap := h.gap
        rw [show entries start before (.uri url :: rest) =
          entryAt start before url :: entries start (.uri url :: before) rest from rfl]
        cases hgap : (entryAt start before url).gap with
        | true =>
          rw [segmentsOf_cons_of_gap hgap, ih (h.uri url) hrun]
          exact congrArg (·.length + _) (addUri_of_gap (hgapEq.trans hgap) url).1
        | false =>
          have hmedia : (m.line (.uri url)).media = m.media ++ [m.here url] :=
            (addUri_of_not_gap (hgapEq.trans hgap) url).1
          rw [segmentsOf_cons_of_not_gap hgap, ih (h.uri url) hrun, hmedia, List.length_append,
            List.length_singleton, Nat.add_assoc, Nat.add_comm 1, List.length_cons]
      | _ => cases hl

/-! ## The text -/

/-- What else a run keeps: nothing is refused, what stands before the segments is an initialisation
segment, and parts come from their lines only. -/
structure Plain (lines : List Line) (m : MediaParser) : Prop where
  fatal : m.fatal = none
  init : ∀ seg ∈ m.init, seg.isMap = true
  parts : m.parts ≠ [] → ∃ l ∈ lines, l.isPart = true

theorem plain_of_run {lines : List Line} (hacc : ∀ l ∈ lines, l.isFatal = false)
    (h : run lineStep {} lines = some m) : Plain lines m := by
  have hstep (u : MediaParser) (l : Line) (u' : MediaParser) (hu : Plain lines u)
      (hl : l ∈ lines) (he : lineStep u l = some u') : Plain lines u' := by
    unfold lineStep at he
    split at he
    · obtain rfl := Option.some.inj he
      cases l with
      | fatal reason => exact absurd (hacc _ hl) Bool.noConfusion
      | part url millis => exact ⟨hu.fatal, hu.init, fun _ => ⟨_, hl, rfl⟩⟩
      | map url range =>
        show Plain lines (u.addMap url range)
        unfold MediaParser.addMap
        dsimp only
        split
        · split
          · exact hu
          · exact ⟨hu.fatal, hu.init, hu.parts⟩
        · exact ⟨hu.fatal, (fun seg hseg => Option.some.inj hseg ▸ rfl), hu.parts⟩
      | uri url =>
        show Plain lines (u.addUri url)
        unfold MediaParser.addUri
        split
        · exact ⟨hu.fatal, hu.init, hu.parts⟩
        · exact ⟨hu.fatal, hu.init, hu.parts⟩
      | _ => exact ⟨hu.fatal, hu.init, hu.parts⟩
    · cases he
  exact run_invariant hstep ⟨rfl, (fun seg hseg => by cases hseg), fun hne => absurd rfl hne⟩
    (along_of_forall fun l hl => hl) h

/-- What is returned is the segments, where there are any. -/
theorem media_result (h : ∀ seg ∈ m.init, seg.isMap = true)
    (hparts : m.parts ≠ [] → m.media ≠ []) :
    m.result.filter (fun seg => !seg.isMap) = m.media := by
  have hsegs : (m.segments.isEmpty && !m.parts.isEmpty) = false := by
    cases hp : m.parts with
    | nil => exact Bool.and_false _
    | cons part parts =>
      cases hs : m.segments with
      | nil =>
        refine absurd ?_ (hparts (by rw [hp]; exact List.cons_ne_nil _ _))
        rw [MediaParser.media, hs]
        rfl
      | cons seg segs => rfl
  rw [MediaParser.result, hsegs, if_neg Bool.false_ne_true, List.filter_append]
  cases hinit : m.init with
  | none => rfl
  | some seg =>
    have hmap : ([seg].filter fun seg => !seg.isMap) = [] := by
      rw [List.filter_singleton, h seg hinit]
      rfl
    rw [Option.toList_some, hmap]
    rfl

end

section

variable {join : String → Option String} {millisOf : List Char → Nat}

/-- Reading a text is reading its lines, as far as they can be cut. -/
theorem run_mediaStep {raws : List (List Char)} {m : MediaParser}
    (h : ∀ raw ∈ raws, trim raw ≠ [] → (scanLine millisOf (trim raw)).Cuts join) :
    run (mediaStep join millisOf) m raws =
      run lineStep m (raws.filterMap fun raw =>
        if trim raw = [] then none else (scanLine millisOf (trim raw)).read join) := by
  induction raws generalizing m with
  | nil => rfl
  | cons raw raws ih =>
    have hraws := fun m => ih (m := m) fun r hr => h r (List.mem_cons_of_mem raw hr)
    rw [List.filterMap_cons, run_cons, mediaStep]
    by_cases hnil : trim raw = []
    · rw [if_pos hnil, if_pos hnil, Option.bind_some]
      exact hraws m
    · rw [if_neg hnil, if_neg hnil]
      obtain ⟨l, hl⟩ := Option.isSome_iff_exists.mp
        (RawLine.read_isSome_iff.mpr (h raw List.mem_cons_self hnil))
      rw [hl]
      exact congrArg _ (funext hraws)

variable (join millisOf)

/-- **A well-formed text is read as what it means exactly if every offset is known.** -/
theorem reads_iff (text : List Char) (h : WellFormed join millisOf text) :
    Reads join millisOf text ↔ Known none 0 none (entriesOf join millisOf text) := by
  have hmeets : Meets (((linesOf join millisOf text).findSome? Line.startsAt).getD 0) [] {} none 0
      none (linesOf join millisOf text) :=
    { tracks := tracks_empty
      first := h.sequenceFirst
      sequence := rfl
      kept_eq := rfl
      link := fun p hp => by cases hp
      contiguous := h.contiguous
      numbers := h.numbers
      sizes := h.sizes }
  have hparse : parseMediaText join millisOf text =
      run lineStep {} (linesOf join millisOf text) := run_mediaStep h.ascii
  rw [← show _ ↔ Known none 0 none (entriesOf join millisOf text) from hmeets.run_iff, Reads, hparse]
  refine exists_congr fun m => and_congr_right fun hm => ?_
  have hplain := plain_of_run h.accepted hm
  have hlen := @length_media_of_run _ _ _ _ ((linesOf join millisOf text).findSome? Line.startsAt |>.getD 0)
    0 tracks_empty hm
  have hmedia := media_result hplain.init fun hp hnil => by
    refine h.whole (hplain.parts hp) (List.length_eq_zero_iff.mp ?_)
    rw [hnil] at hlen
    exact ((Nat.zero_add _).symm.trans hlen.symm)
  rw [hmedia]
  exact ⟨fun hr => hr.2, fun hr => ⟨hplain.fatal, hr⟩⟩

end

/-- The resolution of addresses in the examples. -/
def atHost (uri : String) : Option String := some ("https://host/" ++ uri)

/-- Behind a gap with an offset left out the next segment is given its own. -/
theorem offset_given :
    let text := "#EXTM3U\n#EXT-X-MEDIA-SEQUENCE:7\n#EXT-X-KEY:METHOD=AES-128,URI=\"k\"\n" ++
      "#EXTINF:4,\n#EXT-X-BYTERANGE:10@0\nv.ts\n#EXT-X-GAP\n#EXT-X-BYTERANGE:5\nv.ts\n" ++
      "#EXT-X-KEY:METHOD=NONE\n#EXTINF:2,\n#EXT-X-BYTERANGE:5@15\nv.ts\n#EXT-X-BYTERANGE:1\nv.ts"
    WellFormed atHost (fun v => v.length) text.toList ∧
      Reads atHost (fun v => v.length) text.toList :=
  have h : WellFormed atHost (fun v => v.length) _ := by decide +kernel
  ⟨h, (reads_iff atHost _ _ h).mpr (by decide +kernel)⟩

/-- The segment behind a gap starts at byte 15 of its resource and is read from byte 10. -/
theorem offset_behind_gap :
    let text := "#EXTM3U\n#EXT-X-BYTERANGE:10@0\nv.ts\n#EXT-X-GAP\n#EXT-X-BYTERANGE:5\nv.ts\n" ++
      "#EXT-X-BYTERANGE:5\nv.ts"
    WellFormed atHost (fun _ => 0) text.toList ∧ ¬ Reads atHost (fun _ => 0) text.toList ∧
      ((parseMediaText atHost (fun _ => 0) text.toList).map fun m => m.result.map (·.range)) =
        some [some (0, 10), some (10, 5)] ∧
      ((segmentsOf 0 (entriesOf atHost (fun _ => 0) text.toList)).map (·.range)) =
        [some (0, 10), some (15, 5)] := by
  decide +kernel

end XferRust.Playlist
