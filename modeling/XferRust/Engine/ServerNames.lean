import XferRust.Engine.Targets
import XferRust.Http.Filename
import XferRust.Sftp.Url

/-! # Names from servers

A task without an `out` option is named by the server, and `claim_path` joins the name to the
directory of the task, with a counter where the name is taken.  A counter changes nothing in how a
name is read as a path, so all candidates are one component below the directory if the first one
is.  What is cleaned for HTTP may still begin with a drive; what names an SFTP file is not cleaned
at all.
-/
namespace XferRust.Engine
open Guarded PathName
open Http (Charsets NameTexts headerTexts urlText sanitizeFilename visible probeFilename)
open Sftp (SftpUrl lastSegment)

/-! ## Candidates -/

/-- The name that `claim_path` tries in its round `n`. -/
def candidateName (baseName : List Char) (n : Nat) : List Char :=
  if n = 0 then baseName else renameWithCounter baseName n

theorem rsplitOnce_eq_some {c : Char} {l before after : List Char}
    (h : rsplitOnce c l = some (before, after)) : l = before ++ c :: after := by
  induction l generalizing before with
  | nil => cases h
  | cons x l ih =>
    rw [rsplitOnce] at h
    split at h
    · rename_i b a hl
      obtain ⟨rfl, rfl⟩ := Prod.mk.inj (Option.some.inj h)
      rw [ih hl]
      rfl
    · split at h
      · rename_i hx
        obtain ⟨rfl, rfl⟩ := Prod.mk.inj (Option.some.inj h)
        rw [hx]
        rfl
      · cases h

/-- A name with a counter: the counter is put in front of a dot of the name or behind it. -/
theorem renameWithCounter_eq (name : List Char) (n : Nat) :
    ∃ front back, name = front ++ back ∧ (name ≠ [] → front ≠ []) ∧
      renameWithCounter name n = front ++ '.' :: (Nat.toDigits 10 n ++ back) := by
  have hplain : ∃ front back, name = front ++ back ∧ (name ≠ [] → front ≠ []) ∧
      name ++ ['.'] ++ Nat.toDigits 10 n = front ++ '.' :: (Nat.toDigits 10 n ++ back) :=
    ⟨name, [], (List.append_nil _).symm, id, by
      rw [List.append_nil, List.append_assoc]
      rfl⟩
  unfold renameWithCounter
  split
  · rename_i stem ext hsplit
    split
    · rename_i hstem
      refine ⟨stem, '.' :: ext, rsplitOnce_eq_some hsplit, fun _ => hstem, ?_⟩
      simp only [List.append_assoc, List.cons_append, List.nil_append]
    · exact hplain
  · exact hplain

/-- The letters of a counter. -/
theorem digit_plain {n : Nat} {c : Char} (h : c ∈ Nat.toDigits 10 n) :
    c ≠ '/' ∧ c ≠ '\\' ∧ c ≠ '\x00' ∧ c ≠ '.' := by
  have hdigit := Nat.isDigit_of_mem_toDigits (by decide) (by decide) h
  refine ⟨?_, ?_, ?_, ?_⟩
  · rintro rfl
    exact absurd hdigit (by decide)
  · rintro rfl
    exact absurd hdigit (by decide)
  · rintro rfl
    exact absurd hdigit (by decide)
  · rintro rfl
    exact absurd hdigit (by decide)

/-- **A counter keeps a name one component.** -/
theorem single_renameWithCounter {name : List Char} (h : Single name) (n : Nat) :
    Single (renameWithCounter name n) := by
  obtain ⟨front, back, hname, hfront, heq⟩ := renameWithCounter_eq name n
  have hfront := hfront h.nonempty
  obtain ⟨d, hd⟩ := List.exists_mem_of_ne_nil _ (@Nat.toDigits_ne_nil n 10)
  have hmem : d ∈ renameWithCounter name n := by
    rw [heq]
    exact List.mem_append_right _ (List.mem_cons_of_mem _ (List.mem_append_left _ hd))
  obtain ⟨-, -, -, hdot⟩ := digit_plain hd
  refine ⟨List.ne_nil_of_mem hmem, fun h1 => ?_, fun h2 => ?_, fun c hc => ?_, ?_⟩
  · rw [h1] at hmem
    exact hdot (List.mem_singleton.mp hmem)
  · rw [h2] at hmem
    simp [hdot] at hmem
  · rw [heq] at hc
    rcases List.mem_append.mp hc with hc | hc
    · exact h.letters c (hname ▸ List.mem_append_left _ hc)
    · rcases List.mem_cons.mp hc with rfl | hc
      · decide
      · rcases List.mem_append.mp hc with hc | hc
        · obtain ⟨hslash, hback, hnul, -⟩ := digit_plain hc
          exact ⟨hslash, hback, hnul⟩
        · exact h.letters c (hname ▸ List.mem_append_right _ hc)
  · -- The first two letters are those of the name, or the second is the dot.
    have hno := h.noDrive
    rw [hname] at hno
    rw [heq]
    match front, hfront with
    | [c], _ => rfl
    | c :: d :: front, _ =>
      by_cases hcolon : d = ':'
      · subst hcolon
        exact hno
      · unfold Platform.hasDrive
        split
        · rename_i heq'
          simp only [List.cons_append, List.cons.injEq] at heq'
          exact absurd heq'.2.1 hcolon
        · rfl

theorem joinPath_single {name : List Char} (h : Single name) (dir : Path) :
    joinPath dir name = dir ++ [name] := by
  have hsplit : name.splitOn '/' = [name] :=
    List.splitOnP_eq_singleton fun c hc => beq_false_of_ne (h.letters c hc).1
  have hkept : decide (name ≠ [] ∧ name ≠ ['.']) = true := decide_eq_true ⟨h.nonempty, h.notCur⟩
  have hhead : name.head? ≠ some '/' := fun heq => by
    obtain ⟨rest, rfl⟩ := List.head?_eq_some_iff.mp heq
    exact (h.letters '/' List.mem_cons_self).1 rfl
  unfold joinPath
  rw [hsplit, List.filter_cons, if_pos hkept, List.filter_nil]
  exact if_neg hhead

/-- All candidates are one component, and joined to a directory, on every platform and in
`claim_path`, direct children of it. -/
def StaysBelow (baseName : List Char) : Prop :=
  ∀ n, Single (candidateName baseName n) ∧
    (∀ (p : Platform) (dir : List Component),
      p.push dir (candidateName baseName n) = some (dir ++ [.normal (candidateName baseName n)])) ∧
    ∀ dir : Path, candidate dir baseName n = dir ++ [candidateName baseName n]

theorem staysBelow_iff (baseName : List Char) : StaysBelow baseName ↔ Single baseName := by
  constructor
  · exact fun h => (h 0).1
  · intro h n
    have hsingle : Single (candidateName baseName n) := by
      unfold candidateName
      split
      · exact h
      · exact single_renameWithCounter h n
    exact ⟨hsingle, hsingle.push, joinPath_single hsingle⟩

/-! ## HTTP -/

/-- The texts that a header names the file by; without a header, none. -/
def nameTexts (cs : Charsets) : Option (List Char) → Guarded String NameTexts
  | none => .ok ⟨none, none⟩
  | some cd => headerTexts cs cd

/-- Something is left of the text when it is cleaned. -/
def speaks (text : List Char) : Bool := (sanitizeFilename text).isSome

/-- The text that the file is named by: of those of which something is left, that of `filename*`,
then that of `filename`, then that of the address. -/
def namingText (t : NameTexts) (ofUrl : Option (List Char)) : Option (List Char) :=
  ((t.extended.filter speaks).or (t.plain.filter speaks)).or (ofUrl.filter speaks)

theorem bind_filter_speaks (o : Option (List Char)) :
    (o.filter speaks).bind sanitizeFilename = o.bind sanitizeFilename := by
  cases o with
  | none => rfl
  | some text =>
    rw [Option.filter_some]
    split
    · rfl
    · rename_i hno
      rw [speaks, Bool.not_eq_true, Option.isSome_eq_false_iff, Option.isNone_iff_eq_none] at hno
      exact hno.symm

theorem bind_or_speaks (o q : Option (List Char)) :
    ((o.filter speaks).or q).bind sanitizeFilename =
      (o.bind sanitizeFilename).or (q.bind sanitizeFilename) := by
  rw [← bind_filter_speaks o]
  cases ho : o.filter speaks with
  | none => rfl
  | some text =>
    have hspeaks : speaks text = true := (Option.filter_eq_some_iff.mp ho).2
    obtain ⟨name, hname⟩ := Option.isSome_iff_exists.mp hspeaks
    rw [Option.some_or, Option.bind_some, hname, Option.some_or]

theorem speaks_of_namingText {t : NameTexts} {ofUrl : Option (List Char)} {text : List Char}
    (h : namingText t ofUrl = some text) : speaks text = true := by
  unfold namingText at h
  rw [Option.or_eq_some_iff, Option.or_eq_some_iff] at h
  rcases h with (h | ⟨-, h⟩) | ⟨-, h⟩
  · exact (Option.filter_eq_some_iff.mp h).2
  · exact (Option.filter_eq_some_iff.mp h).2
  · exact (Option.filter_eq_some_iff.mp h).2

theorem single_download : Single ['d', 'o', 'w', 'n', 'l', 'o', 'a', 'd'] :=
  ⟨by decide, by decide, by decide, by simp, by decide⟩

/-- The probe cleans the text that names the file. -/
theorem probeFilename_eq (cs : Charsets) (header : Option (List Char)) (finalUrl : List Char) :
    probeFilename cs header finalUrl = (nameTexts cs header).map fun t =>
      (namingText t (urlText cs finalUrl)).bind sanitizeFilename := by
  have hnaming (t : NameTexts) : (namingText t (urlText cs finalUrl)).bind sanitizeFilename =
      ((t.extended.bind sanitizeFilename).or (t.plain.bind sanitizeFilename)).or
        ((urlText cs finalUrl).bind sanitizeFilename) := by
    rw [namingText, Option.or_assoc, bind_or_speaks, bind_or_speaks, bind_filter_speaks,
      Option.or_assoc]
  simp only [hnaming]
  cases header with
  | none => rfl
  | some cd =>
    have htexts : nameTexts cs (some cd) = headerTexts cs cd := rfl
    rw [htexts]
    unfold probeFilename Http.filenameFromContentDisposition
    dsimp only
    generalize headerTexts cs cd = texts
    cases texts with
    | ok t => rfl
    | error e => rfl

/-- Whatever is probed, the file stays below the directory. -/
def HttpStays (cs : Charsets) (header : Option (List Char)) (finalUrl : List Char) : Prop :=
  ∀ (continueEnabled : Bool) (probe : Probe),
    probeFilename cs header finalUrl = .ok probe.filename →
      StaysBelow ((resolvePath continueEnabled probe).baseName none)

/-- The text that names the file does not begin with a drive, what is cleaned away aside. -/
def NoDriveText (cs : Charsets) (header : Option (List Char)) (finalUrl : List Char) : Prop :=
  ∀ t, nameTexts cs header = .ok t → ∀ text ∈ namingText t (urlText cs finalUrl),
    Platform.windows.hasDrive (visible text) = false

theorem httpStays_iff (cs : Charsets) (header : Option (List Char)) (finalUrl : List Char) :
    HttpStays cs header finalUrl ↔ NoDriveText cs header finalUrl := by
  unfold HttpStays NoDriveText
  rw [probeFilename_eq]
  cases nameTexts cs header with
  | error e => exact ⟨fun _ _ h => (by cases h), fun _ _ _ h => (by cases h)⟩
  | ok t =>
    have hbase (continueEnabled : Bool) (probe : Probe) :
        (resolvePath continueEnabled probe).baseName none =
          probe.filename.getD ['d', 'o', 'w', 'n', 'l', 'o', 'a', 'd'] := rfl
    have hmap (filename : Option (List Char)) :
        ((Except.ok t : Guarded String NameTexts).map fun t =>
            (namingText t (urlText cs finalUrl)).bind sanitizeFilename) = .ok filename ↔
          (namingText t (urlText cs finalUrl)).bind sanitizeFilename = filename :=
      ⟨Except.ok.inj, congrArg Except.ok⟩
    simp only [hbase, hmap, staysBelow_iff]
    constructor
    · intro h t' ht' text htext
      obtain rfl := Except.ok.inj ht'
      obtain ⟨name, hname⟩ := Option.isSome_iff_exists.mp (speaks_of_namingText htext)
      have hsingle := h true ⟨some name, false, none⟩ (by
        rw [Option.mem_def.mp htext]
        exact hname)
      rw [← Http.hasDrive_sanitized hname]
      exact hsingle.noDrive
    · intro h _ probe hprobe
      rw [← hprobe]
      cases hnaming : namingText t (urlText cs finalUrl) with
      | none => exact single_download
      | some text =>
        obtain ⟨name, hname⟩ := Option.isSome_iff_exists.mp (speaks_of_namingText hnaming)
        have hdrive := h t rfl text hnaming
        rw [Option.bind_some, hname]
        exact Http.single_of_sanitized hname ((Http.hasDrive_sanitized hname).trans hdrive)

/-! ## SFTP -/

/-- `resolve_sftp_path`, by the name that the probe has and what is in the control file. -/
def resolveSftpPath (continueEnabled : Bool) (filename : List Char) (ctrlFits : Path → Bool) :
    Resolver where
  baseName out := (out.filter fun s => Playlist.trim s ≠ []).getD filename
  canResume _ path := continueEnabled && ctrlFits path

/-- Whatever is probed, the file stays below the directory. -/
def SftpStays (url : SftpUrl) : Prop :=
  ∀ (continueEnabled : Bool) (ctrlFits : Path → Bool) (name : List Char),
    url.filename = .ok name → StaysBelow ((resolveSftpPath continueEnabled name ctrlFits).baseName none)

/-- The last segment of the path has no letters that lead elsewhere on one of the platforms. -/
structure PlainSegment (segment : List Char) : Prop where
  letters : ∀ c ∈ segment, c ≠ '\\' ∧ c ≠ '\x00'
  noDrive : Platform.windows.hasDrive segment = false

theorem lastSegment_no_slash {path : List Char} {c : Char} (h : c ∈ lastSegment path) : c ≠ '/' :=
  of_decide_eq_true (List.mem_rtakeWhile_imp (p := fun c => decide (c ≠ '/')) h)

theorem sftpStays_iff (url : SftpUrl) : SftpStays url ↔ PlainSegment (lastSegment url.path) := by
  have hbase (continueEnabled : Bool) (name : List Char) (ctrlFits : Path → Bool) :
      (resolveSftpPath continueEnabled name ctrlFits).baseName none = name := rfl
  unfold SftpStays SftpUrl.filename Sftp.validateFilename
  simp only [hbase, staysBelow_iff]
  constructor
  · intro h
    by_cases hrefused : lastSegment url.path = [] ∨ lastSegment url.path = ['.'] ∨
        lastSegment url.path = ['.', '.']
    · rcases hrefused with heq | heq | heq
      · rw [heq]
        exact ⟨by simp, by decide⟩
      · rw [heq]
        exact ⟨by simp, by decide⟩
      · rw [heq]
        exact ⟨by simp, by decide⟩
    · have hsingle := h true (fun _ => false) _ (if_neg hrefused)
      exact ⟨fun c hc => (hsingle.letters c hc).2, hsingle.noDrive⟩
  · intro h _ _ name hname
    split at hname
    · cases hname
    · rename_i hrefused
      obtain rfl := Except.ok.inj hname
      simp only [not_or] at hrefused
      exact ⟨hrefused.1, hrefused.2.1, hrefused.2.2,
        fun c hc => ⟨lastSegment_no_slash hc, h.letters c hc⟩, h.noDrive⟩

/-! ## Both -/

/-- **When the names of servers stay in the directory**: for HTTP, when the text that names the file
does not begin with a drive; for SFTP, when the last segment of the path does not either, and has
neither a backslash nor a NUL. -/
theorem namesStay_iff (cs : Charsets) (header : Option (List Char)) (finalUrl : List Char)
    (u : Sftp.UrlCrates) (raw : List Char) :
    (HttpStays cs header finalUrl ∧ ∀ url, SftpUrl.parse u raw = .ok url → SftpStays url) ↔
      NoDriveText cs header finalUrl ∧
        ∀ url, SftpUrl.parse u raw = .ok url → PlainSegment (lastSegment url.path) := by
  rw [httpStays_iff]
  exact and_congr_right fun _ => forall_congr' fun url =>
    imp_congr_right fun _ => sftpStays_iff url

/-- Decoders that know of nothing but UTF-8. -/
def utf8Only : Charsets := ⟨fun _ => none, fun _ => none, fun _ => []⟩

/-- An address whose last segment has backslashes. -/
def backslashes : SftpUrl := ⟨none, none, ['h'], 22, "/a/..\\..\\b".toList, []⟩

/-- **A drive in a header, and backslashes in an SFTP address**: on Windows the first takes the place
of the directory, and the second leads up from it. -/
theorem drive_and_backslashes :
    ¬HttpStays utf8Only (some "attachment; filename=\"C:x.exe\"".toList) "http://a/".toList ∧
    ¬SftpStays backslashes ∧
    Platform.windows.push [.normal ['d']] "C:x.exe".toList = none ∧
    Platform.windows.push [.normal ['d']] (lastSegment backslashes.path) =
      some [.normal ['d'], .parent, .parent, .normal ['b']] := by
  refine ⟨?_, ?_, by decide +kernel, by decide +kernel⟩
  · rw [httpStays_iff]
    intro h
    have htexts : nameTexts utf8Only (some "attachment; filename=\"C:x.exe\"".toList) =
        .ok ⟨some "C:x.exe".toList, none⟩ := by decide +kernel
    have hno := h _ htexts "C:x.exe".toList (by decide +kernel)
    exact absurd hno (by decide +kernel)
  · rw [sftpStays_iff]
    intro h
    exact (h.letters '\\' (by decide +kernel)).1 rfl

end XferRust.Engine
