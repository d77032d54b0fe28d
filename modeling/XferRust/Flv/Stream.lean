/-! # The byte stream of an FLV recording

`FlvStream` of `flv.rs` takes the bytes of one connection after another, in chunks of any size,
and gives out whole structures: the file header of the first connection, and tags whose
timestamps are mapped to the time axis of the product.  The parse position is a rest of the
buffer instead of an index into it.
-/
namespace XferRust.Flv

/-! ## Bytes -/

/-- A byte of a list, zero beyond its end. -/
def byteAt (bs : List UInt8) (i : Nat) : UInt8 := bs.getD i 0

/-- Three bytes at `i`, most significant first. -/
def be24 (bs : List UInt8) (i : Nat) : Nat :=
  ((byteAt bs i).toNat * 256 + (byteAt bs (i + 1)).toNat) * 256 + (byteAt bs (i + 2)).toNat

/-- Four bytes at `i`, most significant first. -/
def be32 (bs : List UInt8) (i : Nat) : Nat := (byteAt bs i).toNat * 16777216 + be24 bs (i + 1)

/-- `REPLAY_PROBE_LEN`. -/
def replayProbeLen : Nat := 1024
/-- `OPEN_HOLD_LIMIT`. -/
def openHoldLimit : Nat := 1024 * 1024

/-- What the start of a connection's bytes tells about their file header, its length included
when it is whole; nothing when it is none. -/
def headerLen (rest : List UInt8) : Option (Option Nat) :=
  if rest.length < 9 then some none
  else if rest.take 3 ≠ [70, 76, 86] then none
  else if ¬(9 ≤ be32 rest 5 ∧ be32 rest 5 ≤ 4096) then none
  else if rest.length < be32 rest 5 + 4 then some none
  else some (some (be32 rest 5 + 4))

/-- The length of the tag that `rest` starts with, when it is whole. -/
def tagLen (rest : List UInt8) : Option Nat :=
  if rest.length < 11 then none
  else if rest.length < 11 + be24 rest 1 + 4 then none
  else some (11 + be24 rest 1 + 4)

/-! ## The stream -/

structure FlvStream where
  buf : List UInt8
  started : Bool
  headerWritten : Bool
  shift : Option Int
  mappedMax : Nat
  beginProbe : Option (List UInt8)
  segMediaSeen : Bool
  replay : Bool
deriving DecidableEq

namespace FlvStream

def new (resumeMs resumeBytes : Nat) (beginProbe : Option (List UInt8)) : FlvStream where
  buf := []
  started := false
  headerWritten := resumeBytes > 0
  shift := none
  mappedMax := resumeMs
  beginProbe := beginProbe
  segMediaSeen := false
  replay := false

/-- `begin_segment`. -/
def beginSegment (p : FlvStream) : FlvStream :=
  { p with buf := [], started := false, shift := none, segMediaSeen := false, replay := false }

def isMedia (tagType : UInt8) : Bool := tagType = 8 || tagType = 9

/-- `map_ts`. -/
def mapTs (p : FlvStream) (tagType : UInt8) (ts : Nat) : FlvStream × Nat :=
  let shift := if isMedia tagType && p.shift.isNone then some ((ts : Int) - p.mappedMax) else p.shift
  let mapped := match shift with
    | some s => ((ts : Int) - s).toNat
    | none => p.mappedMax
  ({ p with shift, mappedMax := max p.mappedMax mapped }, min mapped 4294967295)

/-- The check for a replay, on the first media tag of a connection. -/
def seeTag (p : FlvStream) (tag : List UInt8) : FlvStream :=
  if isMedia (byteAt tag 0) && !p.segMediaSeen then
    let probe := tag.take replayProbeLen
    match p.beginProbe with
    | none => { p with segMediaSeen := true, beginProbe := some probe }
    | some first => { p with segMediaSeen := true, replay := p.replay || first = probe }
  else p

/-- A tag with another timestamp. -/
def patchTs (tag : List UInt8) (mapped : Nat) : List UInt8 :=
  (((tag.set 4 (UInt8.ofNat (mapped / 65536))).set 5 (UInt8.ofNat (mapped / 256))).set 6
    (UInt8.ofNat mapped)).set 7 (UInt8.ofNat (mapped / 16777216))

/-- The timestamp of a tag. -/
def tagTs (tag : List UInt8) : Nat := (byteAt tag 7).toNat * 16777216 + be24 tag 4

/-- The loop of `feed`, on what is left of the buffer; nothing stands for `NotFlv`.  The first
argument bounds the rounds. -/
def feedLoop : Nat → FlvStream → List UInt8 → List UInt8 →
    Option (FlvStream × List UInt8 × List UInt8)
  | 0, p, rest, out => some (p, rest, out)
  | fuel + 1, p, rest, out =>
    if !p.started then
      match headerLen rest with
      | none => none
      | some none => some (p, rest, out)
      | some (some len) =>
        feedLoop fuel { p with started := true, headerWritten := true } (rest.drop len)
          (if p.headerWritten then out else out ++ rest.take len)
    else
      match tagLen rest with
      | none => some (p, rest, out)
      | some len =>
        let tag := rest.take len
        let (p, mapped) := (p.seeTag tag).mapTs (byteAt tag 0) (tagTs tag)
        feedLoop fuel p (rest.drop len) (out ++ patchTs tag mapped)

/-- `feed`: the stream after a chunk, and the bytes that it gives out. -/
def feed (p : FlvStream) (data : List UInt8) : Option (FlvStream × List UInt8) :=
  let rest := p.buf ++ data
  (feedLoop (rest.length + 1) p rest []).map fun (p, rest, out) => ({ p with buf := rest }, out)

end FlvStream

/-! ## Whole structures -/

/-- A file header with the field behind it. -/
def IsHeader (bs : List UInt8) : Prop := headerLen bs = some (some bs.length)

/-- A tag with its own `PreviousTagSize`. -/
def IsTag (bs : List UInt8) : Prop :=
  tagLen bs = some bs.length ∧ be32 bs (11 + be24 bs 1) = 11 + be24 bs 1

/-- Tags, one after the other. -/
def IsTags (bs : List UInt8) : Prop := ∃ tags : List (List UInt8), (∀ t ∈ tags, IsTag t) ∧ bs = tags.flatten

/-- A file: one header and tags. -/
def IsFile (bs : List UInt8) : Prop := ∃ h tags, IsHeader h ∧ IsTags tags ∧ bs = h ++ tags

theorem isTags_nil : IsTags [] := ⟨[], nofun, rfl⟩

theorem IsTags.append {xs ys : List UInt8} (hx : IsTags xs) (hy : IsTags ys) : IsTags (xs ++ ys) := by
  obtain ⟨ts, hts, rfl⟩ := hx
  obtain ⟨us, hus, rfl⟩ := hy
  refine ⟨ts ++ us, fun t ht => ?_, List.flatten_append.symm⟩
  cases List.mem_append.mp ht with
  | inl ht => exact hts t ht
  | inr ht => exact hus t ht

theorem IsTag.tags {t : List UInt8} (h : IsTag t) : IsTags t := by
  refine ⟨[t], fun u hu => ?_, ?_⟩
  · rw [List.mem_singleton.mp hu]
    exact h
  · rw [List.flatten_cons, List.flatten_nil, List.append_nil]

theorem IsFile.append {xs ys : List UInt8} (hx : IsFile xs) (hy : IsTags ys) : IsFile (xs ++ ys) := by
  obtain ⟨h, tags, hh, htags, rfl⟩ := hx
  exact ⟨h, tags ++ ys, hh, htags.append hy, List.append_assoc h tags ys⟩

theorem IsHeader.file {h : List UInt8} (hh : IsHeader h) : IsFile h :=
  ⟨h, [], hh, isTags_nil, (List.append_nil h).symm⟩

/-! ## Cutting -/

variable {bs : List UInt8}
variable {i len n : Nat} {rest : List UInt8}

theorem byteAt_take (h : i < n) : byteAt (bs.take n) i = byteAt bs i := by
  rw [byteAt, byteAt, List.getD_eq_getElem?_getD, List.getD_eq_getElem?_getD, List.getElem?_take,
    if_pos h]

theorem be24_take (h : i + 2 < n) : be24 (bs.take n) i = be24 bs i := by
  rw [be24, be24, byteAt_take (by omega), byteAt_take (by omega), byteAt_take h]

theorem be32_take (h : i + 3 < n) : be32 (bs.take n) i = be32 bs i := by
  rw [be32, be32, byteAt_take (by omega), be24_take (by omega)]

theorem headerLen_bounds (h : headerLen rest = some (some len)) : 13 ≤ len ∧ len ≤ rest.length := by
  unfold headerLen at h
  split at h
  · cases h
  split at h
  · cases h
  split at h
  · cases h
  split at h
  · cases h
  · obtain rfl := Option.some.inj (Option.some.inj h)
    omega

theorem isHeader_take (h : headerLen rest = some (some len)) : IsHeader (rest.take len) := by
  obtain ⟨hlo, hhi⟩ := headerLen_bounds h
  have hlen : (rest.take len).length = len := by
    rw [List.length_take]
    omega
  have htake : (rest.take len).take 3 = rest.take 3 := by
    rw [List.take_take, Nat.min_eq_left (by omega)]
  unfold IsHeader headerLen at *
  rw [hlen, htake, be32_take (by omega)]
  split at h
  · cases h
  rw [if_neg (by omega)]
  split at h
  · cases h
  rename_i hflv
  rw [if_neg hflv]
  split at h
  · cases h
  rename_i hoff
  rw [if_neg hoff]
  split at h
  · cases h
  obtain rfl := Option.some.inj (Option.some.inj h)
  rw [if_neg (by omega)]

/-- A file is never shorter than a header, and starts with its letters. -/
theorem IsFile.length (h : IsFile bs) : 13 ≤ bs.length := by
  obtain ⟨hd, tags, hh, -, rfl⟩ := h
  have := headerLen_bounds hh
  rw [List.length_append]
  omega

theorem IsFile.letters (h : IsFile bs) : bs.take 3 = [70, 76, 86] := by
  obtain ⟨hd, tags, hh, -, rfl⟩ := h
  have hlen := headerLen_bounds hh
  rw [List.take_append_of_le_length (by omega)]
  unfold IsHeader headerLen at hh
  split at hh
  · cases hh
  split at hh
  · cases hh
  rename_i hflv
  exact Decidable.not_not.mp hflv

theorem tagLen_bounds (h : tagLen rest = some len) :
    len = 11 + be24 rest 1 + 4 ∧ len ≤ rest.length := by
  unfold tagLen at h
  split at h
  · cases h
  split at h
  · cases h
  obtain rfl := Option.some.inj h
  exact ⟨rfl, by omega⟩

theorem tagLen_eq (h : bs.length = 11 + be24 bs 1 + 4) : tagLen bs = some bs.length := by
  unfold tagLen
  rw [if_neg (by omega), if_neg (by omega), h]

namespace FlvStream

theorem length_patchTs (tag : List UInt8) (mapped : Nat) : (patchTs tag mapped).length = tag.length := by
  simp only [patchTs, List.length_set]

theorem byteAt_patchTs {tag : List UInt8} {mapped i : Nat} (h : i < 4 ∨ 8 ≤ i) :
    byteAt (patchTs tag mapped) i = byteAt tag i := by
  simp only [byteAt, List.getD_eq_getElem?_getD, patchTs]
  rw [List.getElem?_set_ne (by omega), List.getElem?_set_ne (by omega),
    List.getElem?_set_ne (by omega), List.getElem?_set_ne (by omega)]

theorem be24_patchTs {tag : List UInt8} {mapped i : Nat} (h : i = 1 ∨ 8 ≤ i) :
    be24 (patchTs tag mapped) i = be24 tag i := by
  rw [be24, be24, byteAt_patchTs (by omega), byteAt_patchTs (by omega), byteAt_patchTs (by omega)]

variable {rest : List UInt8}

/-- Another timestamp leaves a tag a tag. -/
theorem isTag_patchTs {len : Nat} (h : tagLen rest = some len)
    (hsize : be32 rest (11 + be24 rest 1) = 11 + be24 rest 1) (mapped : Nat) :
    IsTag (patchTs (rest.take len) mapped) := by
  obtain ⟨hlen, hle⟩ := tagLen_bounds h
  have hsame : be24 (patchTs (rest.take len) mapped) 1 = be24 rest 1 := by
    rw [be24_patchTs (.inl rfl), be24_take (by omega)]
  refine ⟨tagLen_eq ?_, ?_⟩
  · rw [length_patchTs, hsame, List.length_take]
    omega
  · rw [hsame, be32, byteAt_patchTs (by omega), be24_patchTs (by omega), ← be32,
      be32_take (by omega)]
    exact hsize

/-! ## What a chunk gives out -/

/-- Each of the whole tags that `rest` starts with has its own `PreviousTagSize`. -/
def goodTags : Nat → List UInt8 → Bool
  | 0, _ => true
  | fuel + 1, rest =>
    match tagLen rest with
    | none => true
    | some len =>
      be32 rest (11 + be24 rest 1) = 11 + be24 rest 1 && goodTags fuel (rest.drop len)

/-- The server has sent every tag that the chunk completes with its own `PreviousTagSize`. -/
def goodChunk (p : FlvStream) (data : List UInt8) : Bool :=
  let rest := p.buf ++ data
  if p.started then goodTags (rest.length + 1) rest
  else match headerLen rest with
    | some (some len) => goodTags rest.length (rest.drop len)
    | _ => true

theorem seeTag_flags (p : FlvStream) (tag : List UInt8) :
    (p.seeTag tag).started = p.started ∧ (p.seeTag tag).headerWritten = p.headerWritten := by
  unfold seeTag
  split
  · dsimp only
    split
    · exact ⟨rfl, rfl⟩
    · exact ⟨rfl, rfl⟩
  · exact ⟨rfl, rfl⟩

variable {p : FlvStream} {out : List UInt8}

theorem feedLoop_tags {fuel : Nat} {p' : FlvStream} {rest' out' : List UInt8}
    (hstarted : p.started = true) (hgood : goodTags fuel rest = true)
    (h : feedLoop fuel p rest out = some (p', rest', out')) :
    p'.started = true ∧ p'.headerWritten = p.headerWritten ∧
      ∃ tags, IsTags tags ∧ out' = out ++ tags := by
  induction fuel generalizing p rest out with
  | zero =>
    rw [feedLoop] at h
    cases h
    exact ⟨hstarted, rfl, [], isTags_nil, (List.append_nil _).symm⟩
  | succ fuel ih =>
    rw [feedLoop, hstarted, Bool.not_true, if_neg Bool.false_ne_true] at h
    rw [goodTags] at hgood
    cases hlen : tagLen rest with
    | none =>
      rw [hlen] at h
      cases h
      exact ⟨hstarted, rfl, [], isTags_nil, (List.append_nil _).symm⟩
    | some len =>
      rw [hlen] at h hgood
      obtain ⟨hsize, hgood⟩ := Bool.and_eq_true_iff.mp hgood
      obtain ⟨hs, hw⟩ := seeTag_flags p (rest.take len)
      obtain ⟨hstarted', hwritten, tags, htags, hout⟩ := ih
        (p := ((p.seeTag (rest.take len)).mapTs (byteAt (rest.take len) 0)
          (tagTs (rest.take len))).1) (hs.trans hstarted) hgood h
      exact ⟨hstarted', hwritten.trans hw, _ ++ tags,
        (isTag_patchTs hlen (of_decide_eq_true hsize) _).tags.append htags,
        hout.trans (List.append_assoc _ _ _)⟩

/-- Once the header is read, no bytes are refused. -/
theorem feedLoop_started {fuel : Nat} (hstarted : p.started = true) :
    feedLoop fuel p rest out ≠ none := by
  induction fuel generalizing p rest out with
  | zero => nofun
  | succ fuel ih =>
    rw [feedLoop, hstarted, Bool.not_true, if_neg Bool.false_ne_true]
    cases hlen : tagLen rest with
    | none => nofun
    | some len =>
      refine ih (p := ((p.seeTag (rest.take len)).mapTs (byteAt (rest.take len) 0)
        (tagTs (rest.take len))).1) ?_
      exact (seeTag_flags p (rest.take len)).1.trans hstarted

/-- `NotFlv` comes only of the first bytes of a connection. -/
theorem feed_eq_none {data : List UInt8} (h : p.feed data = none) :
    p.started = false ∧ headerLen (p.buf ++ data) = none := by
  have hloop := Option.map_eq_none_iff.mp h
  by_cases hstarted : p.started = true
  · exact absurd hloop (feedLoop_started hstarted)
  refine ⟨Bool.eq_false_iff.mpr hstarted, ?_⟩
  rw [feedLoop, Bool.eq_false_iff.mpr hstarted] at hloop
  cases hlen : headerLen (p.buf ++ data) with
  | none => rfl
  | some len =>
    rw [hlen] at hloop
    cases len with
    | none => cases hloop
    | some len => exact absurd hloop (feedLoop_started rfl)

/-- **What a chunk gives out**: nothing before the header is whole; then the header, unless the
product has one, and whole tags. -/
theorem feed_spec {p' : FlvStream} {data : List UInt8}
    (hheader : p.started = true → p.headerWritten = true) (hgood : p.goodChunk data = true)
    (h : p.feed data = some (p', out)) :
    (p'.started = true → p'.headerWritten = true) ∧
      (p.headerWritten = true → p'.headerWritten = true ∧ IsTags out) ∧
      (p.headerWritten = false → p'.headerWritten = false ∧ out = [] ∨
        p'.headerWritten = true ∧ IsFile out) := by
  obtain ⟨⟨q, rest', out'⟩, hloop, heq⟩ := Option.map_eq_some_iff.mp h
  obtain ⟨rfl, rfl⟩ := Prod.mk.inj heq
  show (q.started = true → q.headerWritten = true) ∧
    (p.headerWritten = true → q.headerWritten = true ∧ IsTags out') ∧
    (p.headerWritten = false → q.headerWritten = false ∧ out' = [] ∨
      q.headerWritten = true ∧ IsFile out')
  unfold goodChunk at hgood
  dsimp only at hgood
  by_cases hstarted : p.started = true
  · rw [if_pos hstarted] at hgood
    obtain ⟨-, hwritten, tags, htags, hout⟩ := feedLoop_tags hstarted hgood hloop
    rw [hheader hstarted] at hwritten ⊢
    rw [List.nil_append] at hout
    rw [hout]
    exact ⟨fun _ => hwritten, fun _ => ⟨hwritten, htags⟩, nofun⟩
  · rw [if_neg hstarted] at hgood
    rw [feedLoop, Bool.eq_false_iff.mpr hstarted] at hloop
    cases hlen : headerLen (p.buf ++ data) with
    | none =>
      rw [hlen] at hloop
      cases hloop
    | some len =>
      rw [hlen] at hloop hgood
      cases len with
      | none =>
        cases hloop
        exact ⟨fun h => absurd h hstarted, fun hw => ⟨hw, isTags_nil⟩, fun hw => .inl ⟨hw, rfl⟩⟩
      | some len =>
        obtain ⟨-, hwritten, tags, htags, hout⟩ :=
          feedLoop_tags (p := { p with started := true, headerWritten := true }) rfl hgood hloop
        refine ⟨fun _ => hwritten, fun hw => ⟨hwritten, ?_⟩, fun hw => .inr ⟨hwritten, ?_⟩⟩
        · rw [hout, if_pos hw, List.nil_append]
          exact htags
        · rw [hout, if_neg (by rw [hw]; exact Bool.false_ne_true), List.nil_append]
          exact (isHeader_take hlen).file.append htags

/-- The rounds that `feed` allows are enough: more of them change nothing. -/
theorem feedLoop_fuel {fuel fuel' : Nat} (h : rest.length < fuel) (h' : rest.length < fuel') :
    feedLoop fuel p rest out = feedLoop fuel' p rest out := by
  induction fuel generalizing fuel' p rest out with
  | zero => omega
  | succ fuel ih =>
    cases fuel' with
    | zero => omega
    | succ fuel' =>
      rw [feedLoop, feedLoop]
      split
      · split
        · rfl
        · rfl
        · rename_i len hlen
          have hbounds := headerLen_bounds hlen
          refine ih ?_ ?_
          · rw [List.length_drop]
            omega
          · rw [List.length_drop]
            omega
      · split
        · rfl
        · rename_i len hlen
          have hbounds := tagLen_bounds hlen
          refine ih ?_ ?_
          · rw [List.length_drop]
            omega
          · rw [List.length_drop]
            omega

end FlvStream

end XferRust.Flv
