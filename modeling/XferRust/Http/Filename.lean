import Mathlib.Data.List.DropRight
import XferRust.Lib.Faults
import XferRust.Lib.PathName
import XferRust.Playlist.Text

/-! # The name that a server gives a file

A download is named by the `Content-Disposition` of the answer or by the last segment of the
address.  The text is decoded first and cleaned last, so what the decoding brings in is cleaned as
well, and nothing else need be known of it.
-/
namespace XferRust.Http
open Guarded Utf8Slice PathName
open Playlist (trim trimQuotes lower splitOnce isWhitespace isControl)

/-! ## Decoding -/

/-- The decoders that the crate takes from elsewhere: by the label of a character set, that of
GB18030, and the one that leaves marks for what it cannot decode. -/
structure Charsets where
  forLabel : List Char → Option (List UInt8 → Option (List Char))
  gb18030 : List UInt8 → Option (List Char)
  lossy : List UInt8 → List Char

/-- `hex_val`. -/
def hexVal (b : UInt8) : Option UInt8 :=
  if 48 ≤ b ∧ b ≤ 57 then some (b - 48)
  else if 97 ≤ b ∧ b ≤ 102 then some (b - 87)
  else if 65 ≤ b ∧ b ≤ 70 then some (b - 55)
  else none

/-- `percent_to_bytes`, of the bytes of the text. -/
def percentToBytes : List UInt8 → List UInt8
  | [] => []
  | 37 :: h :: l :: rest =>
    match hexVal h, hexVal l with
    | some high, some low => (high <<< 4 ||| low) :: percentToBytes rest
    | _, _ => 37 :: percentToBytes (h :: l :: rest)
  | b :: rest => b :: percentToBytes rest

namespace Charsets
variable (cs : Charsets)

/-- `decode_text`. -/
def decodeText (bytes : List UInt8) : List Char :=
  ((fromUtf8 bytes).or (cs.gb18030 bytes)).getD (cs.lossy bytes)

/-- `decode_text_with_charset`. -/
def decodeTextWithCharset (bytes : List UInt8) (charset : Option (List Char)) : List Char :=
  let declared := charset.bind fun label =>
    if trim label = [] then none else (cs.forLabel (trim label)).bind fun decode => decode bytes
  declared.getD (cs.decodeText bytes)

/-- `decode_percent_text`. -/
def decodePercentText (input : List Char) : List Char :=
  cs.decodeText (percentToBytes (toUtf8 input))

/-- `decode_percent_text_with_charset`. -/
def decodePercentTextWithCharset (input : List Char) (charset : Option (List Char)) : List Char :=
  cs.decodeTextWithCharset (percentToBytes (toUtf8 input)) charset

end Charsets

/-! ## Cleaning -/

/-- The letters that are kept. -/
def keptLetter (c : Char) : Bool := c ≠ '/' && c ≠ '\\' && c ≠ '\x00' && !isControl c

/-- `sanitize_filename`. -/
def sanitizeFilename (name : List Char) : Option (List Char) :=
  let cleaned := name.filter keptLetter
  let trimmed := ((trim cleaned).dropWhile (· = '.')).rdropWhile (· = '.')
  if trimmed = [] then none else some trimmed

/-! ## Headers and addresses -/

/-- `strip_ci`. -/
def stripCi (s pre : List Char) : Guarded String (Option (List Char)) :=
  if byteLen pre ≤ byteLen s then do
    let head ← expect (sliceTo (byteLen pre) s)
    if lower head = lower pre then do
      let rest ← expect (sliceFrom (byteLen pre) s)
      return some rest
    else return none
  else return none

/-- `replace`, of a pair of letters. -/
def replacePair (a b : Char) (new : List Char) : List Char → List Char
  | x :: y :: rest =>
    if x = a ∧ y = b then new ++ replacePair a b new rest
    else x :: replacePair a b new (y :: rest)
  | rest => rest

/-- The texts of the two parameters of a header that name a file. -/
structure NameTexts where
  plain : Option (List Char)
  extended : Option (List Char)
  deriving DecidableEq

/-- The value of `filename*`, decoded: character set, language and text. -/
def extendedText (cs : Charsets) (rest : List Char) : List Char :=
  let parts : List Char × List Char :=
    match splitOnce '\'' rest with
    | none => (rest, [])
    | some (charset, rest) => (charset, ((splitOnce '\'' rest).map Prod.snd).getD [])
  cs.decodePercentTextWithCharset parts.2 (some parts.1)

/-- The value of `filename`, without quotes and escapes. -/
def plainText (rest : List Char) : List Char :=
  replacePair '\\' '\\' ['\\'] (replacePair '\\' '"' ['"'] (trimQuotes (trim rest)))

/-- What one segment of the header adds to the texts. -/
def segmentTexts (cs : Charsets) (t : NameTexts) (seg : List Char) : Guarded String NameTexts := do
  let seg := trim seg
  match ← stripCi seg "filename*=".toList with
  | some rest => return { t with extended := some (extendedText cs rest) }
  | none =>
    match ← stripCi seg "filename=".toList with
    | some rest => return { t with plain := some (plainText rest) }
    | none => return t

/-- The texts of a header: of each parameter the last. -/
def headerTexts (cs : Charsets) (cd : List Char) : Guarded String NameTexts :=
  (cd.splitOn ';').foldlM (segmentTexts cs) ⟨none, none⟩

/-- `filename_from_content_disposition`. -/
def filenameFromContentDisposition (cs : Charsets) (cd : List Char) :
    Guarded String (Option (List Char)) := do
  let t ← headerTexts cs cd
  return (t.extended.bind sanitizeFilename).or (t.plain.bind sanitizeFilename)

/-- The last segment of the path of an address, decoded. -/
def urlText (cs : Charsets) (url : List Char) : Option (List Char) :=
  let path := url.takeWhile fun c => c ≠ '?' && c ≠ '#'
  let last := path.rtakeWhile (· ≠ '/')
  if last = [] then none else some (cs.decodePercentText last)

/-- `filename_from_url`. -/
def filenameFromUrl (cs : Charsets) (url : List Char) : Option (List Char) :=
  (urlText cs url).bind sanitizeFilename

/-- `probe_filename`; the header, if it is there and can be read as text. -/
def probeFilename (cs : Charsets) (header : Option (List Char)) (finalUrl : List Char) :
    Guarded String (Option (List Char)) := do
  let named ←
    match header with
    | none => pure none
    | some cd => filenameFromContentDisposition cs cd
  return named.or (filenameFromUrl cs finalUrl)

/-! ## What is left of a text -/

/-- The text without what is taken out, and without the blanks and then the dots in front. -/
def visible (text : List Char) : List Char :=
  ((text.filter keptLetter).dropWhile isWhitespace).dropWhile (· = '.')

/-- A letter that is not to be cut off stays, with all that is in front of it. -/
theorem prefix_rdropWhile {α : Type} {p : α → Bool} {a : α} (ha : p a = false) (l r : List α) :
    l ++ [a] <+: (l ++ a :: r).rdropWhile p := by
  have hdrop (front : List α) : a :: l.reverse <:+ (front ++ a :: l.reverse).dropWhile p := by
    induction front with
    | nil =>
      have hkept : ([] ++ a :: l.reverse).dropWhile p = a :: l.reverse := by
        rw [List.nil_append, List.dropWhile_cons_of_neg (by rw [ha]; exact Bool.false_ne_true)]
      exact hkept.symm ▸ List.suffix_refl _
    | cons b front ih =>
      rw [List.cons_append, List.dropWhile_cons]
      split
      · exact ih
      · exact ⟨b :: front, rfl⟩
  have h := List.reverse_prefix.mpr (hdrop r.reverse)
  have hfront : (a :: l.reverse).reverse = l ++ [a] := by
    rw [List.reverse_cons, List.reverse_reverse]
  have hall : (r.reverse ++ a :: l.reverse) = (l ++ a :: r).reverse := by
    rw [List.reverse_append, List.reverse_cons, List.append_assoc]
    rfl
  rw [hfront, hall] at h
  exact h

theorem dropWhile_prefix {α : Type} {p : α → Bool} {l m : List α} (h : l <+: m)
    (hne : l.dropWhile p ≠ []) : l.dropWhile p <+: m.dropWhile p := by
  obtain ⟨rest, rfl⟩ := h
  rw [List.dropWhile_append, if_neg (by rwa [List.isEmpty_iff])]
  exact List.prefix_append _ _

theorem windows_hasDrive_iff {name : List Char} :
    Platform.windows.hasDrive name = true ↔
      ∃ c : Char, c.isAlpha = true ∧ [c, ':'] <+: name := by
  constructor
  · intro h
    unfold Platform.hasDrive at h
    split at h
    · exact ⟨_, h, _, rfl⟩
    · cases h
  · rintro ⟨c, hc, rest, rfl⟩
    exact hc

/-- Whether a cleaned name begins with a drive is to be seen in the text. -/
theorem hasDrive_sanitized {text name : List Char} (h : sanitizeFilename text = some name) :
    Platform.windows.hasDrive name = Platform.windows.hasDrive (visible text) := by
  unfold sanitizeFilename at h
  dsimp only at h
  split at h
  · cases h
  rename_i hne
  obtain rfl := Option.some.inj h
  rw [Bool.eq_iff_iff, windows_hasDrive_iff, windows_hasDrive_iff, visible]
  have htrim : trim (text.filter keptLetter) =
    ((text.filter keptLetter).dropWhile isWhitespace).rdropWhile isWhitespace := rfl
  rw [htrim] at hne ⊢
  generalize (text.filter keptLetter).dropWhile isWhitespace = line at hne ⊢
  constructor
  · rintro ⟨c, hc, hdrive⟩
    refine ⟨c, hc, hdrive.trans ((List.rdropWhile_prefix _ _).trans ?_)⟩
    refine dropWhile_prefix (List.rdropWhile_prefix _ _) fun hnil => hne ?_
    rw [hnil]
    rfl
  · rintro ⟨c, hc, rest, hdrive⟩
    refine ⟨c, hc, ?_⟩
    -- In front of the drive there are dots, and neither cut at the end goes past its colon.
    have hdots : ∀ d ∈ line.takeWhile fun c => decide (c = '.'), decide (d = '.') = true :=
      fun d hd => List.mem_takeWhile_imp (p := fun c => decide (c = '.')) hd
    have hline : (line.takeWhile fun c => decide (c = '.')) ++ ([c] ++ ':' :: rest) = line := by
      have hsplit := @List.takeWhile_append_dropWhile _ (fun c => decide (c = '.')) line
      rw [← hdrive] at hsplit
      exact hsplit
    generalize (line.takeWhile fun c => decide (c = '.')) = dots at hdots hline
    have hdot : ¬decide (c = '.') = true := fun hc' =>
      absurd (of_decide_eq_true hc' ▸ hc) (by decide)
    obtain ⟨rest', hcut⟩ := prefix_rdropWhile (show isWhitespace ':' = false by decide)
      (dots ++ [c]) rest
    rw [← hline, ← List.append_assoc, ← hcut, List.append_assoc, List.append_assoc,
      List.dropWhile_append_of_pos hdots, List.singleton_append,
      List.dropWhile_cons_of_neg (p := fun c => decide (c = '.')) hdot]
    exact prefix_rdropWhile (p := fun c => decide (c = '.')) (a := ':') (by decide) [c] rest'

/-- A cleaned name is one component if it does not begin with a drive. -/
theorem single_of_sanitized {text name : List Char} (h : sanitizeFilename text = some name)
    (hdrive : Platform.windows.hasDrive name = false) : Single name := by
  unfold sanitizeFilename at h
  dsimp only at h
  split at h
  · cases h
  rename_i hne
  generalize hline : (trim (text.filter keptLetter)).dropWhile (fun c => decide (c = '.')) = line
    at h hne
  obtain rfl := Option.some.inj h
  have hlast := List.rdropWhile_last_not (fun c => decide (c = '.')) line hne
  have hfront : line.rdropWhile (fun c => decide (c = '.')) <:+: text.filter keptLetter := by
    refine (List.rdropWhile_prefix _ _).isInfix.trans ?_
    rw [← hline]
    refine (List.dropWhile_suffix _).isInfix.trans ?_
    exact (List.rdropWhile_prefix _ _).isInfix.trans (List.dropWhile_suffix _).isInfix
  refine ⟨hne, fun heq => ?_, fun heq => ?_, fun c hc => ?_, hdrive⟩
  · simp [heq] at hlast
  · simp [heq] at hlast
  · have hkept := (List.mem_filter.mp (hfront.mem hc)).2
    simp only [keptLetter, Bool.and_eq_true, decide_eq_true_eq] at hkept
    exact ⟨hkept.1.1.1, hkept.1.1.2, hkept.1.2⟩

end XferRust.Http
