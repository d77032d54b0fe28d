import XferRust.Flv.Stream
import XferRust.Lib.Chunks
import XferRust.Lib.StepRun

/-! # The time axis of an FLV product

What `FlvStream` makes of a connection does not depend on the chunks in which its bytes arrive: it
is a function of the whole tags among them.  The tags in front of the first media tag, and that tag
itself, go to the end of the product so far, and those behind it are moved along with it.
-/
namespace XferRust.Flv

/-- `u32::MAX`, the last timestamp there is. -/
def lastTs : Nat := 4294967295

/-- The whole tags at the start of some bytes; the first argument bounds their number. -/
def tagsFrom : Nat → List UInt8 → List (List UInt8)
  | 0, _ => []
  | fuel + 1, rest =>
    match tagLen rest with
    | none => []
    | some len => rest.take len :: tagsFrom fuel (rest.drop len)

/-- The file header of a connection, once it is whole. -/
def headerOf (bytes : List UInt8) : List UInt8 :=
  match headerLen bytes with
  | some (some len) => bytes.take len
  | _ => []

/-- The whole tags of a connection. -/
def tagsOf (bytes : List UInt8) : List (List UInt8) :=
  match headerLen bytes with
  | some (some len) => tagsFrom bytes.length (bytes.drop len)
  | _ => []

/-- A tag of audio or video. -/
def isMediaTag (tag : List UInt8) : Bool := FlvStream.isMedia (byteAt tag 0)

/-- The timestamps of a connection's tags on the time axis of a product that has come to `w`. -/
def times (w : Nat) : List (List UInt8) → List Nat
  | [] => []
  | tag :: tags =>
    if isMediaTag tag then
      (tag :: tags).map fun t => min (FlvStream.tagTs t + w - FlvStream.tagTs tag) lastTs
    else min w lastTs :: times w tags

/-- The tags of a connection with those timestamps. -/
def restamp (w : Nat) (tags : List (List UInt8)) : List (List UInt8) :=
  List.zipWith FlvStream.patchTs tags (times w tags)

namespace FlvStream

/-- The last timestamp that the product may have so far. -/
def productEnd (p : FlvStream) : Nat := min p.mappedMax lastTs

/-- A connection: the bytes of its response, in chunks. -/
def connect (p : FlvStream) (chunks : List (List UInt8)) : Option (FlvStream × List UInt8) :=
  Chunks.feedAll feed p.beginSegment chunks

/-- Connections one after the other. -/
def record (p : FlvStream) (connections : List (List (List UInt8))) :
    Option (FlvStream × List UInt8) :=
  Chunks.feedAll connect p connections

/-! ## Chunks -/

theorem seeTag_buf (p : FlvStream) (tag buf : List UInt8) :
    { p with buf }.seeTag tag = { p.seeTag tag with buf } := by
  unfold seeTag
  dsimp only
  split
  · split
    · rfl
    · rfl
  · rfl

/-- What is given out before, and the buffer field, play no part in the loop. -/
theorem feedLoop_frame (fuel : Nat) (p : FlvStream) (rest out pre buf : List UInt8) :
    feedLoop fuel { p with buf } rest (pre ++ out) =
      (feedLoop fuel p rest out).map fun (q, rest, out) => ({ q with buf }, rest, pre ++ out) := by
  induction fuel generalizing p rest out with
  | zero => rfl
  | succ fuel ih =>
    rw [feedLoop, feedLoop]
    dsimp only
    split
    · cases headerLen rest with
      | none => rfl
      | some len =>
        cases len with
        | none => rfl
        | some len =>
          dsimp only
          rw [← ih { p with started := true, headerWritten := true }]
          cases p.headerWritten with
          | true => rfl
          | false => exact congrArg (feedLoop fuel _ _) (List.append_assoc _ _ _)
    · cases tagLen rest with
      | none => rfl
      | some len =>
        dsimp only
        rw [seeTag_buf, List.append_assoc, ← ih]
        rfl

variable {out rest : List UInt8} {p : FlvStream}
variable {fuel w : Nat} {tag : List UInt8} {tags : List (List UInt8)}

/-- The loop leaves no more than it is given. -/
theorem feedLoop_rest_le {q : FlvStream} {rest' out' : List UInt8}
    (h : feedLoop fuel p rest out = some (q, rest', out')) : rest'.length ≤ rest.length := by
  induction fuel generalizing p rest out with
  | zero =>
    cases h
    exact Nat.le_refl _
  | succ fuel ih =>
    rw [feedLoop] at h
    split at h
    · split at h
      · cases h
      · cases h
        exact Nat.le_refl _
      · have := ih h
        rw [List.length_drop] at this
        omega
    · split at h
      · cases h
        exact Nat.le_refl _
      · have := ih h
        rw [List.length_drop] at this
        omega

/-! Whole structures stay what they are when more bytes follow. -/

variable {i : Nat}

theorem byteAt_append (h : i < rest.length) (more : List UInt8) :
    byteAt (rest ++ more) i = byteAt rest i := by
  rw [byteAt, byteAt, List.getD_eq_getElem?_getD, List.getD_eq_getElem?_getD,
    List.getElem?_append_left h]

theorem be24_append (h : i + 2 < rest.length) (more : List UInt8) :
    be24 (rest ++ more) i = be24 rest i := by
  rw [be24, be24, byteAt_append (by omega), byteAt_append (by omega), byteAt_append h]

theorem be32_append (h : i + 3 < rest.length) (more : List UInt8) :
    be32 (rest ++ more) i = be32 rest i := by
  rw [be32, be32, byteAt_append (by omega), be24_append (by omega)]

theorem headerLen_append (h : headerLen rest ≠ some none) (more : List UInt8) :
    headerLen (rest ++ more) = headerLen rest := by
  unfold headerLen at h ⊢
  have hlong : ¬rest.length < 9 := fun hlt => h (if_pos hlt)
  rw [if_neg hlong] at h ⊢
  rw [if_neg (by rw [List.length_append]; omega), List.take_append_of_le_length (by omega),
    be32_append (by omega)]
  by_cases hflv : rest.take 3 ≠ [70, 76, 86]
  · rw [if_pos hflv, if_pos hflv]
  rw [if_neg hflv] at h ⊢
  rw [if_neg hflv]
  by_cases hoff : ¬(9 ≤ be32 rest 5 ∧ be32 rest 5 ≤ 4096)
  · rw [if_pos hoff, if_pos hoff]
  rw [if_neg hoff] at h ⊢
  rw [if_neg hoff]
  have hwhole : ¬rest.length < be32 rest 5 + 4 := fun hlt => h (if_pos hlt)
  rw [if_neg hwhole, if_neg (by rw [List.length_append]; omega)]

theorem tagLen_append {len : Nat} (h : tagLen rest = some len) (more : List UInt8) :
    tagLen (rest ++ more) = some len := by
  obtain ⟨rfl, hle⟩ := tagLen_bounds h
  unfold tagLen
  rw [be24_append (by omega), List.length_append, if_neg (by omega), if_neg (by omega)]

/-- **More bytes**: the loop goes on with them where it has stopped without them. -/
theorem feedLoop_append {fuel' fuel'' : Nat} {more : List UInt8} (h : rest.length < fuel)
    (h' : (rest ++ more).length < fuel') (h'' : (rest ++ more).length < fuel'') :
    feedLoop fuel' p (rest ++ more) out =
      (feedLoop fuel p rest out).bind fun (p, rest, out) =>
        feedLoop fuel'' p (rest ++ more) out := by
  induction fuel generalizing fuel' p rest out with
  | zero => omega
  | succ fuel ih =>
    cases fuel' with
    | zero => omega
    | succ fuel' =>
      -- without another structure, the loop has not moved yet
      have hstay : feedLoop (fuel' + 1) p (rest ++ more) out = feedLoop fuel'' p (rest ++ more) out :=
        feedLoop_fuel h' h''
      rw [feedLoop.eq_def (fuel + 1)]
      dsimp only
      by_cases hstarted : (!p.started) = true
      · rw [if_pos hstarted]
        cases hlen : headerLen rest with
        | none =>
          rw [feedLoop, if_pos hstarted, headerLen_append (hlen ▸ fun h => by cases h), hlen]
          rfl
        | some len =>
          cases len with
          | none => exact hstay
          | some len =>
            obtain ⟨hlo, hhi⟩ := headerLen_bounds hlen
            rw [feedLoop, if_pos hstarted, headerLen_append (hlen ▸ fun h => by cases h), hlen]
            dsimp only
            rw [List.drop_append_of_le_length hhi, List.take_append_of_le_length hhi]
            refine ih ?_ ?_ ?_
            · rw [List.length_drop]
              omega
            · rw [List.length_append, List.length_drop]
              rw [List.length_append] at h'
              omega
            · rw [List.length_append, List.length_drop]
              rw [List.length_append] at h''
              omega
      · rw [if_neg hstarted]
        cases hlen : tagLen rest with
        | none => exact hstay
        | some len =>
          obtain ⟨hlo, hhi⟩ := tagLen_bounds hlen
          rw [feedLoop, if_neg hstarted, tagLen_append hlen]
          dsimp only
          rw [List.drop_append_of_le_length hhi, List.take_append_of_le_length hhi]
          refine ih ?_ ?_ ?_
          · rw [List.length_drop]
            omega
          · rw [List.length_append, List.length_drop]
            rw [List.length_append] at h'
            omega
          · rw [List.length_append, List.length_drop]
            rw [List.length_append] at h''
            omega

/-- **A chunk is the same as its two parts.** -/
theorem feed_cuts : Chunks.Cuts feed := by
  intro p xs ys
  unfold feed
  dsimp only
  rw [← List.append_assoc, feedLoop_append (Nat.lt_succ_self (p.buf ++ xs).length)
    (Nat.lt_succ_self _) (Nat.lt_succ_self _)]
  cases hloop : feedLoop ((p.buf ++ xs).length + 1) p (p.buf ++ xs) [] with
  | none => rfl
  | some r =>
    obtain ⟨q, rest, out⟩ := r
    have hle := feedLoop_rest_le hloop
    have hfuel : (rest ++ ys).length < (p.buf ++ xs ++ ys).length + 1 := by
      rw [List.length_append, List.length_append]
      omega
    -- both sides are the loop over what is left, from an output of nothing
    have hleft := feedLoop_frame ((rest ++ ys).length + 1) q (rest ++ ys) [] out q.buf
    have hright := feedLoop_frame ((rest ++ ys).length + 1) q (rest ++ ys) [] [] rest
    rw [List.append_nil] at hleft hright
    rw [Option.bind_some, Option.map_some, Option.bind_some]
    dsimp only
    rw [feedLoop_fuel hfuel (Nat.lt_succ_self _)]
    rw [hright]
    refine (congrArg (Option.map _) hleft).trans ?_
    cases feedLoop ((rest ++ ys).length + 1) q (rest ++ ys) [] with
    | none => rfl
    | some r => rfl

theorem feed_beginSegment_nil (p : FlvStream) :
    p.beginSegment.feed [] = some (p.beginSegment, []) := rfl

/-- **A connection** is what its bytes give in one piece. -/
theorem connect_eq (p : FlvStream) (chunks : List (List UInt8)) :
    p.connect chunks = p.beginSegment.feed chunks.flatten :=
  Chunks.feedAll_eq_feed feed_cuts (feed_beginSegment_nil p) chunks

/-- **A recording** does not depend on the cuts of its connections. -/
theorem record_congr (p : FlvStream) {connections connections' : List (List (List UInt8))}
    (h : connections.map List.flatten = connections'.map List.flatten) :
    p.record connections = p.record connections' := by
  induction connections generalizing p connections' with
  | nil =>
    rw [List.map_eq_nil_iff.mp h.symm]
  | cons c cs ih =>
    obtain ⟨d, ds, rfl, hd, hds⟩ := List.map_eq_cons_iff.mp h.symm
    rw [record, Chunks.feedAll, record, Chunks.feedAll, connect_eq, connect_eq, hd]
    refine congrArg (Option.bind _) (funext fun r => congrArg (Option.map _) ?_)
    exact ih r.1 hds.symm

/-! ## Tags -/

/-- One tag after the other. -/
def stamps : FlvStream → List (List UInt8) → FlvStream × List (List UInt8)
  | p, [] => (p, [])
  | p, tag :: tags =>
    let (q, mapped) := (p.seeTag tag).mapTs (byteAt tag 0) (tagTs tag)
    let (r, more) := stamps q tags
    (r, patchTs tag mapped :: more)

/-- Behind the header, the loop is one tag after the other. -/
theorem feedLoop_eq_stamps (fuel : Nat) (rest out : List UInt8) (hstarted : p.started = true) :
    ∃ rest', feedLoop fuel p rest out = some ((p.stamps (tagsFrom fuel rest)).1, rest',
      out ++ (p.stamps (tagsFrom fuel rest)).2.flatten) := by
  induction fuel generalizing p rest out with
  | zero => exact ⟨rest, by rw [tagsFrom, stamps, List.flatten_nil, List.append_nil]; rfl⟩
  | succ fuel ih =>
    rw [feedLoop, tagsFrom, if_neg (by rw [hstarted]; exact Bool.false_ne_true)]
    cases tagLen rest with
    | none => exact ⟨rest, by dsimp only; rw [stamps, List.flatten_nil, List.append_nil]⟩
    | some len =>
      dsimp only
      obtain ⟨rest', hloop⟩ := ih
        (p := ((p.seeTag (rest.take len)).mapTs (byteAt (rest.take len) 0)
          (tagTs (rest.take len))).1)
        (rest.drop len) (out ++ patchTs (rest.take len) ((p.seeTag (rest.take len)).mapTs
          (byteAt (rest.take len) 0) (tagTs (rest.take len))).2)
        ((seeTag_flags p (rest.take len)).1.trans hstarted)
      refine ⟨rest', hloop.trans ?_⟩
      rw [stamps, List.append_assoc]
      rfl

/-- A tag leaves shift and water mark as they are until its timestamp is mapped. -/
theorem seeTag_clock (p : FlvStream) (tag : List UInt8) :
    (p.seeTag tag).shift = p.shift ∧ (p.seeTag tag).mappedMax = p.mappedMax := by
  unfold seeTag
  split
  · dsimp only
    split
    · exact ⟨rfl, rfl⟩
    · exact ⟨rfl, rfl⟩
  · exact ⟨rfl, rfl⟩

/-- Behind the first media tag. -/
theorem stamps_shifted {s : Int} (hs : p.shift = some s) (tags : List (List UInt8)) :
    (p.stamps tags).2 =
        tags.map (fun tag => patchTs tag (min ((tagTs tag : Int) - s).toNat lastTs)) ∧
      (p.stamps tags).1.mappedMax =
        (tags.map fun tag => ((tagTs tag : Int) - s).toNat).foldl max p.mappedMax := by
  induction tags generalizing p with
  | nil => exact ⟨rfl, rfl⟩
  | cons tag tags ih =>
    obtain ⟨hshift, hmax⟩ := seeTag_clock p tag
    -- the shift is there, so the tag is moved by it
    have hmap : (p.seeTag tag).mapTs (byteAt tag 0) (tagTs tag) =
        ({ p.seeTag tag with
            shift := some s, mappedMax := max p.mappedMax ((tagTs tag : Int) - s).toNat },
          min ((tagTs tag : Int) - s).toNat lastTs) := by
      unfold mapTs
      rw [hshift, hs, hmax, Option.isNone_some, Bool.and_false, if_neg Bool.false_ne_true]
      rfl
    obtain ⟨htags, hend⟩ := ih (p := { p.seeTag tag with
      shift := some s, mappedMax := max p.mappedMax ((tagTs tag : Int) - s).toNat }) rfl
    rw [stamps, hmap]
    exact ⟨congrArg (_ :: ·) htags, hend⟩

/-- The cap and the maximum of a list change places. -/
theorem min_foldl_max (cap : Nat) (ns : List Nat) (m : Nat) :
    min (ns.foldl max m) cap = (ns.map (min · cap)).foldl max (min m cap) := by
  induction ns generalizing m with
  | nil => rfl
  | cons n ns ih =>
    rw [List.foldl_cons, ih, List.map_cons, List.foldl_cons]
    congr 1
    omega

/-- **Every timestamp of a connection** is the one on the time axis. -/
theorem stamps_eq (hs : p.shift = none) (tags : List (List UInt8)) :
    (p.stamps tags).2 = restamp p.mappedMax tags ∧
      (p.stamps tags).1.productEnd = (times p.mappedMax tags).foldl max p.productEnd := by
  induction tags generalizing p with
  | nil => exact ⟨rfl, rfl⟩
  | cons tag tags ih =>
    obtain ⟨hshift, hmax⟩ := seeTag_clock p tag
    by_cases hmedia : isMediaTag tag = true
    · -- the first media tag comes to the end of the product
      have hmap : (p.seeTag tag).mapTs (byteAt tag 0) (tagTs tag) =
          ({ p.seeTag tag with
              shift := some ((tagTs tag : Int) - p.mappedMax), mappedMax := p.mappedMax },
            min p.mappedMax lastTs) := by
        have hzero : ((tagTs tag : Int) - ((tagTs tag : Int) - p.mappedMax)).toNat =
            p.mappedMax := by omega
        unfold mapTs
        dsimp only
        rw [hshift, hs, hmax, if_pos (by rw [isMediaTag] at hmedia; rw [hmedia]; rfl)]
        dsimp only
        rw [hzero, Nat.max_self]
        rfl
      obtain ⟨htags, hend⟩ := stamps_shifted (p := { p.seeTag tag with
        shift := some ((tagTs tag : Int) - p.mappedMax), mappedMax := p.mappedMax }) rfl tags
      have hmoved : ∀ t, ((tagTs t : Int) - ((tagTs tag : Int) - p.mappedMax)).toNat =
          tagTs t + p.mappedMax - tagTs tag := fun t => by omega
      simp only [hmoved] at htags hend
      rw [stamps, hmap, restamp, times, if_pos hmedia, List.map_cons, List.zipWith_cons_cons,
        Nat.add_sub_cancel_left]
      dsimp only
      refine ⟨?_, ?_⟩
      · rw [htags, List.zipWith_map_right, List.zipWith_self]
      · rw [productEnd, hend, min_foldl_max, List.map_map, List.foldl_cons, productEnd,
          Nat.max_self]
        rfl
    · have hmap : (p.seeTag tag).mapTs (byteAt tag 0) (tagTs tag) =
          (p.seeTag tag, min p.mappedMax lastTs) := by
        have hfree : isMedia (byteAt tag 0) = false := Bool.eq_false_iff.mpr hmedia
        unfold mapTs
        dsimp only
        rw [hshift, hs, hmax, hfree, Bool.false_and, if_neg Bool.false_ne_true]
        dsimp only
        rw [Nat.max_self, ← hmax, ← hs, ← hshift]
        rfl
      obtain ⟨htags, hend⟩ := ih (p := p.seeTag tag) (hshift.trans hs)
      rw [stamps, hmap, restamp, times, if_neg hmedia, List.zipWith_cons_cons]
      dsimp only
      refine ⟨?_, ?_⟩
      · rw [htags, hmax]
        rfl
      · rw [hend, List.foldl_cons, productEnd, productEnd, hmax, Nat.max_self]

/-! ## Timestamps -/

theorem byteAt_set {bs : List UInt8} {b : UInt8} (h : i < bs.length) :
    byteAt (bs.set i b) i = b := by
  rw [byteAt, List.getD_eq_getElem?_getD, List.getElem?_set_self h, Option.getD_some]

theorem byteAt_set_ne {bs : List UInt8} {j : Nat} {b : UInt8} (h : i ≠ j) :
    byteAt (bs.set i b) j = byteAt bs j := by
  rw [byteAt, byteAt, List.getD_eq_getElem?_getD, List.getD_eq_getElem?_getD,
    List.getElem?_set_ne h]

theorem tagTs_patchTs {mapped : Nat} (hlen : 8 ≤ tag.length) (h : mapped ≤ lastTs) :
    tagTs (patchTs tag mapped) = mapped := by
  have hbyte : ∀ n : Nat, (UInt8.ofNat n).toNat = n % 256 := fun n => UInt8.toNat_ofNat'
  have h4 : byteAt (patchTs tag mapped) 4 = UInt8.ofNat (mapped / 65536) := by
    rw [patchTs, byteAt_set_ne (by decide), byteAt_set_ne (by decide), byteAt_set_ne (by decide),
      byteAt_set (by omega)]
  have h5 : byteAt (patchTs tag mapped) 5 = UInt8.ofNat (mapped / 256) := by
    rw [patchTs, byteAt_set_ne (by decide), byteAt_set_ne (by decide),
      byteAt_set (by rw [List.length_set]; omega)]
  have h6 : byteAt (patchTs tag mapped) 6 = UInt8.ofNat mapped := by
    rw [patchTs, byteAt_set_ne (by decide),
      byteAt_set (by rw [List.length_set, List.length_set]; omega)]
  have h7 : byteAt (patchTs tag mapped) 7 = UInt8.ofNat (mapped / 16777216) := by
    rw [patchTs, byteAt_set (by simp only [List.length_set]; omega)]
  unfold lastTs at h
  rw [tagTs, be24, h4, h5, h6, h7, hbyte, hbyte, hbyte, hbyte]
  omega

theorem length_times (w : Nat) (tags : List (List UInt8)) :
    (times w tags).length = tags.length := by
  induction tags with
  | nil => rfl
  | cons tag tags ih =>
    rw [times]
    split
    · exact List.length_map _
    · rw [List.length_cons, List.length_cons, ih]

theorem times_le {ts : Nat} (h : ts ∈ times w tags) : ts ≤ lastTs := by
  induction tags with
  | nil => cases h
  | cons tag tags ih =>
    rw [times] at h
    split at h
    · obtain ⟨t, -, rfl⟩ := List.mem_map.mp h
      exact Nat.min_le_right _ _
    · rcases List.mem_cons.mp h with rfl | h
      · exact Nat.min_le_right _ _
      · exact ih h

theorem length_of_mem_tagsFrom (h : tag ∈ tagsFrom fuel rest) : 15 ≤ tag.length := by
  induction fuel generalizing rest with
  | zero => cases h
  | succ fuel ih =>
    rw [tagsFrom] at h
    split at h
    · cases h
    · rename_i len hlen
      obtain ⟨hlo, hhi⟩ := tagLen_bounds hlen
      rcases List.mem_cons.mp h with rfl | h
      · rw [List.length_take]
        omega
      · exact ih h

/-- The tags of a product say the timestamps that they were given. -/
theorem map_tagTs_zipWith {ts : List Nat} (hlen : ts.length = tags.length)
    (htags : ∀ tag ∈ tags, 15 ≤ tag.length) (hts : ∀ t ∈ ts, t ≤ lastTs) :
    (List.zipWith patchTs tags ts).map tagTs = ts := by
  induction tags generalizing ts with
  | nil => rw [List.length_eq_zero_iff.mp hlen, List.zipWith_nil_left, List.map_nil]
  | cons tag tags ih =>
    cases ts with
    | nil => cases hlen
    | cons t ts =>
      have htag := htags tag List.mem_cons_self
      rw [List.zipWith_cons_cons, List.map_cons,
        tagTs_patchTs (by omega) (hts t List.mem_cons_self),
        ih (Nat.succ.inj hlen) (fun u hu => htags u (List.mem_cons_of_mem _ hu))
          (fun u hu => hts u (List.mem_cons_of_mem _ hu))]

/-- **The tags up to the first media tag** are at the end of the product. -/
theorem times_opening {n ts : Nat} {front later : List (List UInt8)}
    (hfront : ∀ tag ∈ front, isMediaTag tag = false) (hn : n ≤ front.length)
    (h : (times w (front ++ later))[n]? = some ts) : ts = min w lastTs := by
  induction front generalizing n with
  | nil =>
    obtain rfl : n = 0 := by simpa using hn
    cases later with
    | nil => cases h
    | cons tag later =>
      rw [List.nil_append, times] at h
      split at h
      · rw [List.map_cons, List.getElem?_cons_zero, Nat.add_sub_cancel_left] at h
        exact (Option.some.inj h).symm
      · exact (Option.some.inj h).symm
  | cons tag front ih =>
    rw [List.cons_append, times, hfront tag List.mem_cons_self, if_neg Bool.false_ne_true] at h
    cases n with
    | zero => exact (Option.some.inj h).symm
    | succ n =>
      rw [List.getElem?_cons_succ] at h
      exact ih (fun u hu => hfront u (List.mem_cons_of_mem _ hu)) (Nat.le_of_succ_le_succ hn) h

/-- **From the first media tag on**, the timestamps are in the order of the connection. -/
theorem times_order {j k a b : Nat} {m t u : List UInt8} (hm : tags[k]? = some m)
    (hmedia : isMediaTag m = true) (hk : k ≤ i) (hij : i ≤ j) (ht : tags[i]? = some t)
    (hu : tags[j]? = some u) (ha : (times w tags)[i]? = some a) (hb : (times w tags)[j]? = some b)
    (hle : tagTs t ≤ tagTs u) : a ≤ b := by
  induction tags generalizing i j k with
  | nil => cases hm
  | cons tag tags ih =>
    rw [times] at ha hb
    split at ha
    · rename_i hfirst
      rw [if_pos hfirst] at hb
      rw [List.getElem?_map, ht, Option.map_some] at ha
      rw [List.getElem?_map, hu, Option.map_some] at hb
      obtain rfl := Option.some.inj ha
      obtain rfl := Option.some.inj hb
      omega
    · rename_i hfirst
      rw [if_neg hfirst] at hb
      cases k with
      | zero => exact absurd (Option.some.inj hm ▸ hmedia) hfirst
      | succ k =>
        obtain ⟨i, rfl⟩ : ∃ n, i = n + 1 := ⟨i - 1, by omega⟩
        obtain ⟨j, rfl⟩ : ∃ n, j = n + 1 := ⟨j - 1, by omega⟩
        exact ih hm (Nat.le_of_succ_le_succ hk) (Nat.le_of_succ_le_succ hij) ht hu ha hb

/-! ## Connections -/

/-- **What a connection adds** to the product: behind a header that is still missing, its whole
tags, with timestamps that continue from where the product ends. -/
structure Continues (p p' : FlvStream) (bytes out : List UInt8) : Prop where
  written : out = (if p.headerWritten then [] else headerOf bytes) ++
    (restamp p.mappedMax (tagsOf bytes)).flatten
  stamped : (restamp p.mappedMax (tagsOf bytes)).map tagTs = times p.mappedMax (tagsOf bytes)
  opening : ∀ front later n ts, tagsOf bytes = front ++ later →
    (∀ tag ∈ front, isMediaTag tag = false) → n ≤ front.length →
    (times p.mappedMax (tagsOf bytes))[n]? = some ts → ts = p.productEnd
  order : ∀ (i j k a b : Nat) (m t u : List UInt8), (tagsOf bytes)[k]? = some m →
    isMediaTag m = true → k ≤ i → i ≤ j → (tagsOf bytes)[i]? = some t →
    (tagsOf bytes)[j]? = some u → (times p.mappedMax (tagsOf bytes))[i]? = some a →
    (times p.mappedMax (tagsOf bytes))[j]? = some b → tagTs t ≤ tagTs u → a ≤ b
  ending : p'.productEnd = (times p.mappedMax (tagsOf bytes)).foldl max p.productEnd

theorem length_of_mem_tagsOf {bytes : List UInt8} (h : tag ∈ tagsOf bytes) : 15 ≤ tag.length := by
  unfold tagsOf at h
  split at h
  · exact length_of_mem_tagsFrom h
  · cases h

/-- **A connection in closed form.** -/
theorem feed_beginSegment {p' : FlvStream} {bytes : List UInt8}
    (h : p.beginSegment.feed bytes = some (p', out)) :
    out = (if p.headerWritten then [] else headerOf bytes) ++
        (restamp p.mappedMax (tagsOf bytes)).flatten ∧
      p'.productEnd = (times p.mappedMax (tagsOf bytes)).foldl max p.productEnd := by
  obtain ⟨⟨q, rest, out'⟩, hloop, heq⟩ := Option.map_eq_some_iff.mp h
  cases heq
  have hnot : (!p.beginSegment.started) = true := rfl
  rw [show p.beginSegment.buf ++ bytes = bytes from rfl, feedLoop, if_pos hnot] at hloop
  unfold tagsOf headerOf
  cases hlen : headerLen bytes with
  | none =>
    rw [hlen] at hloop
    cases hloop
  | some len =>
    rw [hlen] at hloop
    cases len with
    | none =>
      cases hloop
      refine ⟨?_, rfl⟩
      dsimp only
      split
      · rfl
      · rfl
    | some len =>
      dsimp only at hloop ⊢
      obtain ⟨rest', hstamps⟩ := feedLoop_eq_stamps bytes.length
        (p := { p.beginSegment with started := true, headerWritten := true }) (bytes.drop len)
        (if p.headerWritten then [] else [] ++ bytes.take len) rfl
      obtain ⟨htags, hend⟩ := stamps_eq
        (p := { p.beginSegment with started := true, headerWritten := true }) rfl
        (tagsFrom bytes.length (bytes.drop len))
      cases hloop.symm.trans hstamps
      refine ⟨?_, hend⟩
      rw [htags, List.nil_append]
      rfl

theorem connect_continues {p' : FlvStream} {chunks : List (List UInt8)}
    (h : p.connect chunks = some (p', out)) : Continues p p' chunks.flatten out := by
  rw [connect_eq] at h
  obtain ⟨hwritten, hending⟩ := feed_beginSegment h
  refine ⟨hwritten, ?_, ?_, ?_, hending⟩
  · exact map_tagTs_zipWith (length_times _ _) (fun _ => length_of_mem_tagsOf) (fun _ => times_le)
  · intro front later n ts htags hfront hn hts
    rw [htags] at hts
    exact times_opening hfront hn hts
  · intro i j k a b m t u hm hmedia hk hij ht hu ha hb hle
    exact times_order hm hmedia hk hij ht hu ha hb hle

/-- **The product of an FLV recording** is the same for all ways of cutting its connections into
chunks, the parser behind it included, and each connection continues it. -/
theorem record_timeline (p : FlvStream) (connections connections' : List (List (List UInt8)))
    (h : connections.map List.flatten = connections'.map List.flatten) :
    p.record connections = p.record connections' ∧
      StepRun.Along (fun p chunks => (p.connect chunks).map Prod.fst)
        (fun p chunks => ∀ p' out, p.connect chunks = some (p', out) →
          Continues p p' chunks.flatten out) p connections := by
  refine ⟨record_congr p h, ?_⟩
  clear h
  induction connections generalizing p with
  | nil => trivial
  | cons c cs ih => exact ⟨fun p' out hc => connect_continues hc, fun p' _ => ih p'⟩

/-! ## A connection that goes back in time -/

/-- A video tag without data. -/
def videoAt (ts : Nat) : List UInt8 := patchTs [9, 0, 0, 0, 0, 0, 0, 0, 0, 0, 0, 0, 0, 0, 11] ts

/-- The third tag is earlier than the second one. -/
def goingBack : List UInt8 :=
  [70, 76, 86, 1, 5, 0, 0, 0, 9, 0, 0, 0, 0] ++ videoAt 1000 ++ videoAt 2000 ++ videoAt 1500

theorem goingBack_decreases :
    (∃ p out, (new 0 0 none).connect [goingBack] = some (p, out) ∧
      out = headerOf goingBack ++ [videoAt 0, videoAt 1000, videoAt 500].flatten) ∧
      ¬([videoAt 0, videoAt 1000, videoAt 500].map tagTs).Pairwise (· ≤ ·) := by
  have h : ((new 0 0 none).connect [goingBack]).map Prod.snd =
      some (headerOf goingBack ++ [videoAt 0, videoAt 1000, videoAt 500].flatten) := by
    decide +kernel
  obtain ⟨⟨p, out⟩, hc, hout⟩ := Option.map_eq_some_iff.mp h
  exact ⟨⟨p, out, hc, hout⟩, by decide +kernel⟩

/-- A recording of two connections; the second one arrives byte by byte. -/
theorem record_bytewise :
    (new 0 0 none).record [[goingBack], [goingBack]] =
        (new 0 0 none).record [[goingBack], goingBack.map fun b => [b]] ∧
      StepRun.Along (fun p chunks => (p.connect chunks).map Prod.fst)
        (fun p chunks => ∀ p' out, p.connect chunks = some (p', out) →
          Continues p p' chunks.flatten out) (new 0 0 none) [[goingBack], [goingBack]] :=
  record_timeline _ _ _ (by decide +kernel)

end FlvStream

end XferRust.Flv
