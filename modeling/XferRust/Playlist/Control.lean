import Mathlib.Data.List.Flatten
import Mathlib.Data.List.Sort
import XferRust.Lib.Decimal
import XferRust.Playlist.Media

/-! # The control file of a playlist

What a download leaves behind is taken up again only if the control file belongs to the same list
of segments.  The list is compared by a fingerprint: the hash of the addresses, the ranges and the
addresses of the keys, each behind the other.  Of an address either the full text counts, or its
stable form, without the host and without the parameters that are signatures or times.

Between the texts that are hashed there is no separator.  A list is therefore recognised as
another one exactly when their texts run together to the same bytes and are cut elsewhere
(`recognises_iff`); two ranges of two files are enough (`boundary_moved`).
-/
namespace XferRust.Playlist

/-! ## The stable form of an address -/

/-- `VOLATILE_QUERY_KEYS`. -/
def volatileQueryKeys : List String :=
  ["token", "access_token", "accesstoken", "auth", "authorization", "auth_key", "authkey", "sign",
    "sig", "signature", "signed", "ssign", "psign", "wssign", "wskey", "wssecret", "ws_secret",
    "expires", "expire", "deadline", "nonce", "hdnts", "txsecret", "txtime", "playauth",
    "sessionid"]

/-- `AMBIGUOUS_QUERY_KEYS`. -/
def ambiguousQueryKeys : List String :=
  ["t", "e", "ts", "time", "timestamp", "_t", "_time", "r", "rand", "key", "k", "sid", "session",
    "sn"]

/-- `is_ascii_hexdigit`. -/
def isHexDigit (c : Char) : Bool :=
  c.isDigit || ('a' ≤ c && c ≤ 'f') || ('A' ≤ c && c ≤ 'F')

/-- `looks_like_opaque_value`: a time, a digest or a long token. -/
def looksLikeOpaqueValue (v : String) : Bool :=
  (8 ≤ v.utf8ByteSize && v.toList.all Char.isDigit) ||
    (16 ≤ v.utf8ByteSize && v.toList.all isHexDigit) ||
    (20 ≤ v.utf8ByteSize && (v.toList.all fun c => c.isAlphanum || c == '-' || c == '_') &&
      v.toList.any Char.isAlpha && v.toList.any Char.isDigit)

/-- `is_volatile_param`. -/
def isVolatileParam (k v : String) : Bool :=
  let k := String.ofList (k.toList.map Char.toLower)
  volatileQueryKeys.contains k || (ambiguousQueryKeys.contains k && looksLikeOpaqueValue v)

/-- What `Url::parse` says of an address: `path` and `query_pairs`. -/
structure Address where
  path : String
  queryPairs : List (String × String)

/-- The order of the pairs in the stable form. -/
def PairLe (a b : String × String) : Prop := a.1 < b.1 ∨ a.1 = b.1 ∧ a.2 ≤ b.2

instance (a b : String × String) : Decidable (PairLe a b) :=
  inferInstanceAs (Decidable (_ ∨ _))

/-- The pairs of a query, each behind a `?` or a `&`. -/
def joinPairs (pairs : List (String × String)) : String :=
  String.join (pairs.mapIdx fun i kv => (if i = 0 then "?" else "&") ++ kv.1 ++ "=" ++ kv.2)

/-- `stable_url`. -/
def stableUrl (parse : String → Option Address) (raw : String) : String :=
  match parse raw with
  | none => String.ofList (raw.toList.takeWhile (· ≠ '#'))
  | some u =>
    let pairs := u.queryPairs.filter fun kv => !isVolatileParam kv.1 kv.2
    u.path ++ joinPairs (pairs.insertionSort PairLe)

/-! ## The fingerprint -/

/-- A string is the bytes of its UTF-8 form (`as_bytes`). -/
def asBytes (s : String) : List UInt8 := s.toByteArray.data.toList

theorem asBytes_inj {s t : String} (h : asBytes s = asBytes t) : s = t :=
  String.toByteArray_inj.mp (ByteArray.ext (Array.toList_inj.mp h))

/-- The text of a range, `offset:length`. -/
def rangeText (r : Nat × Nat) : List UInt8 := Decimal.digits r.1 ++ 58 :: Decimal.digits r.2

theorem takeWhile_rangeText (r : Nat × Nat) :
    (rangeText r).takeWhile Decimal.isDigit = Decimal.digits r.1 := by
  rw [rangeText, List.takeWhile_append_of_pos fun b hb => Decimal.isDigit_of_mem_digits hb,
    List.takeWhile_cons_of_neg (by decide), List.append_nil]

/-- The colon is no digit, so both numbers can be read back. -/
theorem rangeText_inj {r s : Nat × Nat} (h : rangeText r = rangeText s) : r = s := by
  have hfst : Decimal.digits r.1 = Decimal.digits s.1 := by
    rw [← takeWhile_rangeText, ← takeWhile_rangeText, h]
  have hsnd : Decimal.digits r.2 = Decimal.digits s.2 := by
    rw [rangeText, rangeText, hfst] at h
    exact (List.cons.inj (List.append_cancel_left h)).2
  exact Prod.ext (Decimal.digits_inj hfst) (Decimal.digits_inj hsnd)

section

variable (text : String → String)

/-- What an initialisation segment feeds to the hash. -/
def Segment.fedInit (seg : Segment) : List (List UInt8) :=
  asBytes (text seg.url) :: (seg.range.map rangeText).toList

/-- What a segment feeds to the hash. -/
def Segment.fed (seg : Segment) : List (List UInt8) :=
  asBytes (text seg.url) :: ((seg.range.map rangeText).toList ++
    (seg.key.map fun k => asBytes (text k.url)).toList)

/-- The bytes that the hash of a fingerprint is fed with. -/
def PlaylistPlan.fed (plan : PlaylistPlan) : List UInt8 :=
  ((plan.init.toList.map (Segment.fedInit text)).flatten ++
    (plan.segments.map (Segment.fed text)).flatten).flatten

end

section

variable (digest : List UInt8 → String) (parse : String → Option Address)

/-- `fingerprint`. -/
def fingerprint (plan : PlaylistPlan) : String := digest (plan.fed id)

/-- `stable_fingerprint`. -/
def stableFingerprint (plan : PlaylistPlan) : String := digest (plan.fed (stableUrl parse))

/-- `CTRL_KIND`. -/
def ctrlKind : String := "hls-playlist"

/-- The control file of a list that does not grow. -/
structure PlaylistCtrl where
  kind : String := ctrlKind
  v : Nat := 1
  fp : String
  fps : String := ""
  url : String
  segs : Nat
  /-- How many segments the product holds in full (`prefix`). -/
  written : Nat
  /-- Their bytes. -/
  bytes : Nat
  /-- The bytes of the next segment that stand behind them. -/
  part : Nat := 0
  mode : String := ""
  /-- The segments that are complete in files of their own. -/
  mask : List Bool := []
  deriving DecidableEq

/-- `ctrl_of`. -/
def ctrlOf (plan : PlaylistPlan) (written bytes part : Nat) (mode : String) (mask : List Bool) :
    PlaylistCtrl where
  fp := fingerprint digest plan
  fps := stableFingerprint digest parse plan
  url := plan.source
  segs := plan.segmentCount
  written
  bytes
  part
  mode
  mask

/-- `load_ctrl`; the file is none if it cannot be read. -/
def loadCtrl (file : Option PlaylistCtrl) (plan : PlaylistPlan) : Option PlaylistCtrl :=
  match file with
  | none => none
  | some c =>
    if c.kind ≠ ctrlKind ∨ c.v ≠ 1 then none
    else if c.segs ≠ plan.segmentCount then none
    else
      let exact := c.fp = fingerprint digest plan ∧ c.url = plan.source
      let stable := c.fps ≠ "" ∧ c.fps = stableFingerprint digest parse plan ∧
        stableUrl parse c.url = stableUrl parse plan.source
      if exact ∨ stable then some c else none

end

/-! ## What a segment is known by -/

/-- The address, the range and the address of the key. -/
structure Identity where
  address : String
  range : Option (Nat × Nat)
  key : Option String
  deriving DecidableEq

def Segment.identity (text : String → String) (seg : Segment) : Identity where
  address := text seg.url
  range := seg.range
  key := seg.key.map fun k => text k.url

/-- The segments of a plan, the initialisation segment first. -/
def PlaylistPlan.identities (text : String → String) (plan : PlaylistPlan) : List Identity :=
  (plan.init.toList ++ plan.segments).map (Segment.identity text)

namespace Identity

/-- The texts that stand for it. -/
def texts (i : Identity) : List (List UInt8) :=
  asBytes i.address :: ((i.range.map rangeText).toList ++ (i.key.map asBytes).toList)

/-- How long they are. -/
def lengths (i : Identity) : Nat × Option Nat × Option Nat :=
  ((asBytes i.address).length, i.range.map fun r => (rangeText r).length,
    i.key.map fun k => (asBytes k).length)

/-- The lengths in a row. -/
def inRow (l : Nat × Option Nat × Option Nat) : List Nat := l.1 :: (l.2.1.toList ++ l.2.2.toList)

theorem length_texts (i : Identity) : i.texts.map List.length = inRow i.lengths := by
  obtain ⟨address, range, key⟩ := i
  cases range <;> cases key <;> rfl

/-- The texts and the places where they are cut say what they stand for. -/
theorem eq_of_texts {i j : Identity} (ht : i.texts = j.texts) (hl : i.lengths = j.lengths) :
    i = j := by
  obtain ⟨a, r, k⟩ := i
  obtain ⟨b, s, m⟩ := j
  have ha : a = b := asBytes_inj (List.cons.inj ht).1
  have hr : (r.map rangeText).toList.length = (s.map rangeText).toList.length := by
    have h := congrArg (fun l => l.2.1.isSome) hl
    simp only [lengths, Option.isSome_map] at h
    rw [Option.length_toList, Option.length_toList, Option.isSome_map, Option.isSome_map, h]
  obtain ⟨hrange, hkey⟩ := List.append_inj (List.cons.inj ht).2 hr
  have hlist : ∀ {o o' : Option (List UInt8)}, o.toList = o'.toList → o = o' := by
    intro o o' h
    rw [← @Option.head?_toList _ o, h, Option.head?_toList]
  have hrs : r = s :=
    Option.map_injective (fun _ _ => rangeText_inj) (hlist hrange)
  have hkm : k = m := Option.map_injective (fun _ _ => asBytes_inj) (hlist hkey)
  rw [ha, hrs, hkm]

/-- The same for a list of them. -/
theorem eq_of_flatten {l m : List Identity}
    (ht : (l.map texts).flatten.flatten = (m.map texts).flatten.flatten)
    (hl : l.map lengths = m.map lengths) : l = m := by
  have hcuts : ∀ l : List Identity,
      (l.map texts).flatten.map List.length = ((l.map lengths).map inRow).flatten := by
    intro l
    rw [List.map_flatten, List.map_map, List.map_map]
    exact congrArg List.flatten (List.map_congr_left fun i _ => length_texts i)
  have hcounts : ∀ l : List Identity,
      (l.map texts).map List.length = ((l.map lengths).map inRow).map List.length := by
    intro l
    rw [List.map_map, List.map_map, List.map_map]
    refine List.map_congr_left fun i _ => ?_
    rw [Function.comp_apply, Function.comp_apply, Function.comp_apply, ← length_texts,
      List.length_map]
  have hflat : (l.map texts).flatten = (m.map texts).flatten :=
    List.eq_iff_flatten_eq.mpr ⟨ht, by rw [hcuts, hcuts, hl]⟩
  have htexts : l.map texts = m.map texts :=
    List.eq_iff_flatten_eq.mpr ⟨hflat, by rw [hcounts, hcounts, hl]⟩
  have hlen : l.length = m.length := by
    have h := congrArg List.length hl
    rwa [List.length_map, List.length_map] at h
  refine List.ext_getElem hlen fun n hn hn' => eq_of_texts ?_ ?_
  · have h := congrArg (fun x => x[n]?) htexts
    simpa [hn, hn'] using h
  · have h := congrArg (fun x => x[n]?) hl
    simpa [hn, hn'] using h

end Identity

namespace MediaParser

theorem line_init {m : MediaParser} (h : ∀ i ∈ m.init, i.key = none) (l : Line) :
    ∀ i ∈ (m.line l).init, i.key = none := by
  cases l with
  | map url range =>
    rw [line, addMap]
    cases m.currentMap with
    | none =>
      intro i hi
      obtain rfl := Option.some.inj hi
      rfl
    | some prev =>
      dsimp only
      split
      · exact h
      · exact h
  | uri url =>
    rw [line, addUri]
    split
    · exact h
    · exact h
  | _ => exact h

end MediaParser

namespace PlaylistPlan

variable {text : String → String} {p q : PlaylistPlan}

/-- An initialisation segment has no key (`parseMedia_init`). -/
def PlainInit (plan : PlaylistPlan) : Prop := ∀ i ∈ plan.init, i.key = none

theorem parseMedia_init {source : String} {lines : List Line}
    (h : parseMedia source lines = some p) : p.PlainInit := by
  have hfold : ∀ (ls : List Line) (m : MediaParser), (∀ i ∈ m.init, i.key = none) →
      ∀ i ∈ (ls.foldl MediaParser.line m).init, i.key = none := by
    intro ls
    induction ls with
    | nil => exact fun _ hm => hm
    | cons l ls ih => exact fun m hm => ih _ (MediaParser.line_init hm l)
  have hm := hfold lines {} (fun _ hi => by cases hi)
  simp only [parseMedia, Option.ite_none_left_eq_some, Option.some.injEq] at h
  obtain ⟨-, rfl⟩ := h
  intro i hi
  dsimp only at hi
  split at hi
  · obtain ⟨j, hj, rfl⟩ := Option.map_eq_some_iff.mp hi
    exact hm j hj
  · exact hm i hi

theorem fed_eq (h : p.PlainInit) :
    p.fed text = ((p.identities text).map Identity.texts).flatten.flatten := by
  have hseg : ∀ s : Segment, s.fed text = (s.identity text).texts := by
    intro s
    rw [Segment.fed, Segment.identity, Identity.texts, Option.map_map]
    rfl
  have hinit : p.init.toList.map (Segment.fedInit text) =
      p.init.toList.map fun s => (s.identity text).texts := by
    refine List.map_congr_left fun s hs => ?_
    rw [Segment.identity, Identity.texts, h s (Option.mem_toList.mp hs)]
    exact (congrArg _ (List.append_nil _)).symm
  rw [fed, hinit, List.map_congr_left fun s _ => hseg s, ← List.flatten_append, ← List.map_append,
    identities, List.map_map]
  rfl

/-- Where the texts of the list are cut. -/
def cuts (text : String → String) (plan : PlaylistPlan) : List (Nat × Option Nat × Option Nat) :=
  (plan.identities text).map Identity.lengths

/-- If the texts of two lists of one address run together to the same bytes, they are cut at the
same places. -/
def CutAlike (text : String → String) (p q : PlaylistPlan) : Prop :=
  text p.source = text q.source → p.fed text = q.fed text → p.cuts text = q.cuts text

instance (text : String → String) (p q : PlaylistPlan) : Decidable (CutAlike text p q) :=
  inferInstanceAs (Decidable (_ → _ → _))

theorem CutAlike.identities (h : CutAlike text p q) (hp : p.PlainInit) (hq : q.PlainInit)
    (hs : text p.source = text q.source) (hf : p.fed text = q.fed text) :
    p.identities text = q.identities text := by
  refine Identity.eq_of_flatten ?_ (h hs hf)
  rw [← fed_eq hp, ← fed_eq hq, hf]

theorem identities_map (text : String → String) (plan : PlaylistPlan) :
    plan.identities text = (plan.identities id).map fun i =>
      { i with address := text i.address, key := i.key.map text } := by
  rw [identities, identities, List.map_map]
  refine List.map_congr_left fun s _ => ?_
  rw [Function.comp_apply, Segment.identity, Segment.identity, Option.map_map]
  rfl

end PlaylistPlan

section

variable {digest : List UInt8 → String} {parse : String → Option Address} {p q : PlaylistPlan}
  {c : PlaylistCtrl}

/-- The control file was written for a list (`ctrl_of`). -/
structure PlaylistCtrl.WrittenFor (digest : List UInt8 → String) (parse : String → Option Address)
    (c : PlaylistCtrl) (plan : PlaylistPlan) : Prop where
  kind : c.kind = ctrlKind
  v : c.v = 1
  fp : c.fp = fingerprint digest plan
  fps : c.fps = stableFingerprint digest parse plan
  url : c.url = plan.source
  segs : c.segs = plan.segmentCount

theorem ctrlOf_writtenFor (plan : PlaylistPlan) (written bytes part : Nat) (mode : String)
    (mask : List Bool) :
    (ctrlOf digest parse plan written bytes part mode mask).WrittenFor digest parse plan :=
  ⟨rfl, rfl, rfl, rfl, rfl, rfl⟩

/-- The first of the two tests. -/
def PlaylistCtrl.Exact (digest : List UInt8 → String) (c : PlaylistCtrl) (plan : PlaylistPlan) :
    Prop :=
  c.fp = fingerprint digest plan ∧ c.url = plan.source

/-- **The control file of one list is taken for another one only if they are the same**, segment
by segment: in the stable form, and behind the exact test in full. -/
def Recognises (digest : List UInt8 → String) (parse : String → Option Address)
    (c : PlaylistCtrl) (p q : PlaylistPlan) : Prop :=
  loadCtrl digest parse (some c) q = some c →
    p.segmentCount = q.segmentCount ∧
      p.identities (stableUrl parse) = q.identities (stableUrl parse) ∧
      (c.Exact digest q → p.identities id = q.identities id)

theorem loadCtrl_iff (hc : c.WrittenFor digest parse p) (hne : ∀ l, digest l ≠ "")
    (hinj : Function.Injective digest) :
    loadCtrl digest parse (some c) q = some c ↔ p.segmentCount = q.segmentCount ∧
      (p.fed id = q.fed id ∧ p.source = q.source ∨
        p.fed (stableUrl parse) = q.fed (stableUrl parse) ∧
          stableUrl parse p.source = stableUrl parse q.source) := by
  have hkind : ¬ (c.kind ≠ ctrlKind ∨ c.v ≠ 1) := fun h =>
    h.elim (fun h => h hc.kind) fun h => h hc.v
  have htests : (c.fp = fingerprint digest q ∧ c.url = q.source ∨
      c.fps ≠ "" ∧ c.fps = stableFingerprint digest parse q ∧
        stableUrl parse c.url = stableUrl parse q.source) ↔
      (p.fed id = q.fed id ∧ p.source = q.source ∨
        p.fed (stableUrl parse) = q.fed (stableUrl parse) ∧
          stableUrl parse p.source = stableUrl parse q.source) := by
    rw [hc.fp, hc.fps, hc.url, fingerprint, fingerprint, stableFingerprint, stableFingerprint,
      hinj.eq_iff, hinj.eq_iff, and_iff_right (hne _)]
  rw [loadCtrl, if_neg hkind, hc.segs, ← htests]
  by_cases hsegs : p.segmentCount = q.segmentCount
  · rw [if_neg (not_not.mpr hsegs), and_iff_right hsegs]
    constructor
    · intro h
      by_contra hn
      rw [if_neg hn] at h
      cases h
    · intro h
      exact if_pos h
  · rw [if_pos hsegs]
    exact iff_of_false (by simp) fun h => hsegs h.1

/-- **A list is taken for another one exactly when the texts run together**: two lists with as many
segments, whose texts are the same bytes and are cut at other places. -/
theorem recognises_iff (hinj : Function.Injective digest) (hne : ∀ l, digest l ≠ "")
    (hp : p.PlainInit) (hq : q.PlainInit) (hc : c.WrittenFor digest parse p) :
    Recognises digest parse c p q ↔ (p.segmentCount = q.segmentCount →
      PlaylistPlan.CutAlike id p q ∧ PlaylistPlan.CutAlike (stableUrl parse) p q) := by
  have hexact : c.Exact digest q ↔ p.fed id = q.fed id ∧ p.source = q.source := by
    rw [PlaylistCtrl.Exact, hc.fp, hc.url, fingerprint, fingerprint, hinj.eq_iff]
  have hload := @loadCtrl_iff digest parse p q c hc hne hinj
  constructor
  · intro h hsegs
    refine ⟨fun hs hf => ?_, fun hs hf => ?_⟩
    · have hsame := h (hload.mpr ⟨hsegs, Or.inl ⟨hf, hs⟩⟩)
      rw [PlaylistPlan.cuts, PlaylistPlan.cuts, hsame.2.2 (hexact.mpr ⟨hf, hs⟩)]
    · have hsame := h (hload.mpr ⟨hsegs, Or.inr ⟨hf, hs⟩⟩)
      rw [PlaylistPlan.cuts, PlaylistPlan.cuts, hsame.2.1]
  · intro h hacc
    obtain ⟨hsegs, htests⟩ := hload.mp hacc
    obtain ⟨hfull, hstable⟩ := h hsegs
    have hid : c.Exact digest q → p.identities id = q.identities id := fun he =>
      hfull.identities hp hq (hexact.mp he).2 (hexact.mp he).1
    refine ⟨hsegs, ?_, hid⟩
    rcases htests with ⟨hf, hs⟩ | ⟨hf, hs⟩
    · rw [PlaylistPlan.identities_map _ p, PlaylistPlan.identities_map _ q,
        hid (hexact.mpr ⟨hf, hs⟩)]
    · exact hstable.identities hp hq hs hf

end

/-- A hash that keeps everything, for the two examples below. -/
def spelled (l : List UInt8) : String := String.ofList ('#' :: l.map fun b => Char.ofNat b.toNat)

theorem spelled_ne (l : List UInt8) : spelled l ≠ "" := by
  intro h
  have hlist := congrArg String.toList h
  rw [spelled, String.toList_ofList] at hlist
  exact List.cons_ne_nil _ _ hlist

theorem spelled_injective : Function.Injective spelled := by
  intro l m h
  have hchars := (List.cons.inj (String.ofList_injective h)).2
  refine List.map_injective_iff.mpr ?_ hchars
  intro a b hab
  have hvalid : ∀ x : UInt8, (Char.ofNat x.toNat).toNat = x.toNat := by
    intro x
    rw [Char.ofNat, dif_pos (Or.inl (Nat.lt_trans x.toNat_lt (by decide)))]
    rfl
  have hnat : (Char.ofNat a.toNat).toNat = (Char.ofNat b.toNat).toNat := congrArg Char.toNat hab
  rw [hvalid, hvalid] at hnat
  exact UInt8.toNat_inj.mp hnat

/-- `Url::parse` of an address `https://host/path` without a query. -/
def parseBare (raw : String) : Option Address :=
  if raw.toList.take 8 = "https://".toList then
    some ⟨String.ofList ((raw.toList.drop 8).dropWhile (· ≠ '/')), []⟩
  else none

/-- A list of one range of one file. -/
def oneRange (host file : String) (offset len : Nat) : PlaylistPlan where
  source := "https://" ++ host ++ "/l.m3u8"
  segments := [{ url := "https://" ++ host ++ "/" ++ file, range := some (offset, len), seq := 0 }]

/-- The first digit of an offset read as the end of the address: three bytes at 2 of a file `a1`
are taken for three bytes at 12 of a file `a`. -/
theorem boundary_moved :
    Function.Injective spelled ∧ ¬ Recognises spelled parseBare
      (ctrlOf spelled parseBare (oneRange "h" "a1" 2 3) 1 3 0 "" []) (oneRange "h" "a1" 2 3)
        (oneRange "h" "a" 12 3) := by
  refine ⟨spelled_injective, fun h => ?_⟩
  exact absurd (h (by decide)).2.1 (by decide)

theorem otherHost_recognised :
    Recognises spelled parseBare
      (ctrlOf spelled parseBare (oneRange "a" "s.ts" 0 188) 1 188 0 "" [])
        (oneRange "a" "s.ts" 0 188) (oneRange "b" "s.ts" 0 188) :=
  (recognises_iff spelled_injective spelled_ne (fun _ h => by cases h) (fun _ h => by cases h)
    (ctrlOf_writtenFor _ _ _ _ _ _)).mpr (by decide)

end XferRust.Playlist
