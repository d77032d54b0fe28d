import Mathlib.Data.List.DropRight
import XferRust.Lan.ReceiveFiles
import XferRust.Lib.Hex
import XferRust.Lib.PathName
import XferRust.Playlist.Text

/-! # The names of incoming files

What the other side offers as a name becomes the name of a file in the receive directory:
`sanitize_name` takes out of it what could lead elsewhere, and `reserve_pair` and `unique_final`
put numbers into it.  Each step of the cleaning keeps what the ones before it have done:
the letters, as none brings a new one in but `_`; that no two dots stand together, as what is cut
off is cut off at the ends; and the first letter, as what follows takes letters from the end.
-/
namespace XferRust.Lan
open Playlist (trim isWhitespace isControl)
open PathName

/-! ## Cleaning -/

/-- `replace("..", "_")`. -/
def replaceDots : List Char → List Char
  | '.' :: '.' :: l => '_' :: replaceDots l
  | c :: l => c :: replaceDots l
  | [] => []

/-- What Windows does not allow becomes `_`. -/
def allowedLetter (c : Char) : Char :=
  if c ∈ [':', '*', '?', '"', '<', '>', '|'] then '_' else c

/-- `unnamed` -/
def unnamed : List Char := ['u', 'n', 'n', 'a', 'm', 'e', 'd']

/-- `sanitize_name`. -/
def sanitizeName (raw : List Char) : List Char :=
  let trimmedRaw := trim raw
  if trimmedRaw = [] ∨ trimmedRaw = ['.'] ∨ trimmedRaw = ['.', '.'] then unnamed
  else
    let cleaned := (raw.filter fun c => ¬(c = '/' ∨ c = '\\' ∨ isControl c)).map allowedLetter
    let cleaned := replaceDots cleaned
    let cleaned := ((trim cleaned).dropWhile (· = '.')).rdropWhile (· = '.')
    let cleaned := cleaned.take 180
    let cleaned := cleaned.rdropWhile fun c => c = ' ' ∨ c = '.'
    if cleaned = [] then unnamed else cleaned

/-- `random_hex`: the digits of the random bytes, or of the time where there are none. -/
def randomHex (filled : Option (List UInt8)) (nowMs : Nat) : List Char :=
  match filled with
  | some buf => (Hex.encode buf).toList
  | none =>
    let digits := Nat.toDigits 16 nowMs
    List.replicate (32 - digits.length) '0' ++ digits

/-! ## What the cleaning leaves -/

/-- A letter that leads nowhere. -/
structure PlainLetter (c : Char) : Prop where
  slash : c ≠ '/'
  back : c ≠ '\\'
  colon : c ≠ ':'
  control : isControl c = false

instance decidablePlainLetter (c : Char) : Decidable (PlainLetter c) :=
  decidable_of_iff (c ≠ '/' ∧ c ≠ '\\' ∧ c ≠ ':' ∧ isControl c = false)
    ⟨fun h => ⟨h.1, h.2.1, h.2.2.1, h.2.2.2⟩, fun h => ⟨h.slash, h.back, h.colon, h.control⟩⟩

/-- A name that stays where it is put. -/
structure CleanName (name : List Char) : Prop where
  nonempty : name ≠ []
  letters : ∀ c ∈ name, PlainLetter c
  noParent : ¬['.', '.'] <:+: name
  first : name.head? ≠ some '.'
  last : name.getLast? ≠ some '.'

theorem head?_replaceDots {l : List Char} (h : (replaceDots l).head? = some '.') :
    l.head? = some '.' := by
  unfold replaceDots at h
  split at h
  · cases h
  · exact h
  · cases h

theorem replaceDots_noParent (l : List Char) : ¬['.', '.'] <:+: replaceDots l := by
  induction l using replaceDots.induct with
  | case1 l ih =>
    rw [replaceDots, List.infix_cons_iff]
    rintro (h | h)
    · exact absurd (List.cons_prefix_cons.mp h).1 (by decide)
    · exact ih h
  | case2 c l hno ih =>
    rw [replaceDots, List.infix_cons_iff]
    · rintro (h | h)
      · obtain ⟨rfl, hnext⟩ := List.cons_prefix_cons.mp h
        obtain ⟨rest, hrest⟩ := hnext
        have hhead : (replaceDots l).head? = some '.' := by
          rw [← hrest]
          rfl
        obtain ⟨l', rfl⟩ := List.head?_eq_some_iff.mp (head?_replaceDots hhead)
        exact hno l' rfl rfl
      · exact ih h
    · exact hno
  | case3 =>
    intro h
    exact absurd h.length_le (by decide)

theorem mem_replaceDots {c : Char} {l : List Char} (h : c ∈ replaceDots l) : c ∈ l ∨ c = '_' := by
  induction l using replaceDots.induct with
  | case1 l ih =>
    rw [replaceDots] at h
    rcases List.mem_cons.mp h with h | h
    · exact .inr h
    · exact (ih h).imp_left fun h => List.mem_cons_of_mem _ (List.mem_cons_of_mem _ h)
  | case2 d l hno ih =>
    rw [replaceDots] at h
    · rcases List.mem_cons.mp h with rfl | h
      · exact .inl List.mem_cons_self
      · exact (ih h).imp_left (List.mem_cons_of_mem _)
    · exact hno
  | case3 => exact (List.not_mem_nil h).elim

theorem allowedLetter_plain {c : Char} (hslash : c ≠ '/') (hback : c ≠ '\\')
    (hcontrol : isControl c = false) : PlainLetter (allowedLetter c) := by
  unfold allowedLetter
  split
  · decide
  · rename_i hno
    exact ⟨hslash, hback, fun h => hno (h ▸ List.mem_cons_self), hcontrol⟩

theorem trim_within (l : List Char) : trim l <:+: l := by
  have hprefix : trim l <+: l.dropWhile isWhitespace :=
    List.rdropWhile_prefix (p := isWhitespace) (l := l.dropWhile isWhitespace)
  exact hprefix.isInfix.trans (List.dropWhile_suffix _).isInfix

theorem unnamed_clean : CleanName unnamed where
  nonempty := by decide
  letters := by
    simp only [unnamed, List.forall_mem_cons, List.not_mem_nil, false_implies, implies_true]
    decide
  noParent := by decide
  first := by decide
  last := by decide

/-- **A cleaned name is clean**, whatever was offered. -/
theorem sanitizeName_clean (raw : List Char) : CleanName (sanitizeName raw) := by
  unfold sanitizeName
  dsimp only
  split
  · exact unnamed_clean
  generalize hletters : (raw.filter _).map allowedLetter = letters
  generalize hbare : ((trim (replaceDots letters)).dropWhile _).rdropWhile _ = bare
  generalize hcut : (bare.take 180).rdropWhile _ = name
  split
  · exact unnamed_clean
  rename_i hne
  -- The name is what the ends were cut off from, up to some letter.
  have hfront : name <+: (trim (replaceDots letters)).dropWhile fun c => decide (c = '.') := by
    have hname : name <+: bare := by
      rw [← hcut]
      exact (List.rdropWhile_prefix _ _).trans (List.take_prefix _ _)
    refine hname.trans ?_
    rw [← hbare]
    exact List.rdropWhile_prefix _ _
  have hwithin : name <:+: replaceDots letters :=
    hfront.isInfix.trans ((List.dropWhile_suffix _).isInfix.trans (trim_within _))
  refine ⟨hne, fun c hc => ?_, fun h => replaceDots_noParent _ (h.trans hwithin), fun h => ?_,
    fun h => ?_⟩
  · rcases mem_replaceDots (hwithin.mem hc) with hc | rfl
    · rw [← hletters] at hc
      obtain ⟨d, hd, rfl⟩ := List.mem_map.mp hc
      have hkept := (List.mem_filter.mp hd).2
      simp only [not_or, decide_eq_true_eq, Bool.not_eq_true] at hkept
      exact allowedLetter_plain hkept.1 hkept.2.1 hkept.2.2
    · decide
  · obtain ⟨rest, rfl⟩ := List.head?_eq_some_iff.mp h
    obtain ⟨more, hmore⟩ := hfront
    have hnot := List.head?_dropWhile_not (fun c => decide (c = '.')) (trim (replaceDots letters))
    rw [← hmore] at hnot
    simp at hnot
  · obtain ⟨front, rfl⟩ := List.getLast?_eq_some_iff.mp h
    have hlast := List.rdropWhile_last_not (fun c => decide (c = ' ' ∨ c = '.')) (bare.take 180)
      (by rw [hcut]; exact hne)
    simp only [hcut] at hlast
    simp at hlast

/-! ## The paths -/

/-- Letters that lead nowhere, and not dots alone. -/
theorem plain_of_letters {name : List Char} (h : ∀ c ∈ name, PlainLetter c) {c : Char}
    (hc : c ∈ name) (hdot : c ≠ '.') : Plain name where
  nonempty := List.ne_nil_of_mem hc
  notCur := fun heq => hdot (List.mem_singleton.mp (heq ▸ hc))
  notParent := fun heq => by
    rw [heq] at hc
    simp [hdot] at hc
  letters := fun d hd => by
    obtain ⟨hslash, hback, hcolon, hcontrol⟩ := h d hd
    exact ⟨hslash, hback, hcolon, fun hnul => absurd (hnul ▸ hcontrol) (by decide)⟩

theorem splitExt_join (name : List Char) : (splitExt name).1 ++ (splitExt name).2 = name := by
  unfold splitExt
  split
  · exact List.append_nil name
  · dsimp only
    split
    · exact List.take_append_drop _ _
    · exact List.append_nil name

theorem exists_digit {b n : Nat} (hb : 1 < b) {c : Char} (h : c ∈ Nat.toDigits b n) :
    ∃ k < b, c = k.digitChar := by
  induction n using Nat.strongRecOn with
  | ind n ih =>
    rw [Nat.toDigits_eq_if hb] at h
    split at h
    · rename_i hless
      exact ⟨n, hless, List.mem_singleton.mp h⟩
    · rename_i hless
      rcases List.mem_append.mp h with h | h
      · exact ih _ (Nat.div_lt_self (by omega) hb) h
      · exact ⟨n % b, Nat.mod_lt _ (by omega), List.mem_singleton.mp h⟩

theorem digitChar_plain : ∀ k < 16, PlainLetter k.digitChar := by decide

theorem hexDigit_plain : ∀ k < 16, PlainLetter (Hex.digit k) := by decide

theorem toDigits_plain {b n : Nat} (hb : 1 < b) (hle : b ≤ 16) :
    ∀ c ∈ Nat.toDigits b n, PlainLetter c := fun c hc => by
  obtain ⟨k, hk, rfl⟩ := exists_digit hb hc
  exact digitChar_plain k (by omega)

/-- Whatever the random bytes and the time. -/
theorem randomHex_plain (filled : Option (List UInt8)) (nowMs : Nat) :
    ∀ c ∈ randomHex filled nowMs, PlainLetter c := by
  intro c hc
  unfold randomHex at hc
  split at hc
  · rename_i buf
    rw [Hex.encode, String.toList_ofList] at hc
    obtain ⟨b, -, hc⟩ := List.mem_flatMap.mp hc
    have hb := b.toNat_lt
    rcases List.mem_cons.mp hc with rfl | hc
    · exact hexDigit_plain _ (by omega)
    · obtain rfl := List.mem_singleton.mp hc
      exact hexDigit_plain _ (by omega)
  · rcases List.mem_append.mp hc with hc | hc
    · obtain rfl := List.eq_of_mem_replicate hc
      decide
    · exact toDigits_plain (by decide) (by decide) c hc

section
variable {name : List Char}

/-- The letters of a name that is tried are those of the name, and a number in brackets. -/
theorem numbered_letters (h : ∀ c ∈ name, PlainLetter c) (n : Nat) :
    ∀ c ∈ numbered (splitExt name).1 (splitExt name).2 n, PlainLetter c := by
  intro c hc
  have hjoin := splitExt_join name
  have hstem (c : Char) (hc : c ∈ (splitExt name).1) : PlainLetter c :=
    h c (hjoin ▸ List.mem_append_left _ hc)
  have hext (c : Char) (hc : c ∈ (splitExt name).2) : PlainLetter c :=
    h c (hjoin ▸ List.mem_append_right _ hc)
  unfold numbered at hc
  split at hc
  · exact h c (hjoin ▸ hc)
  · simp only [List.mem_append, List.mem_cons, List.not_mem_nil, or_false] at hc
    rcases hc with (((hc | rfl | rfl) | hc) | rfl) | hc
    · exact hstem c hc
    · decide
    · decide
    · exact toDigits_plain (by decide) (by decide) c hc
    · decide
    · exact hext c hc

/-- One of them is not a dot. -/
theorem numbered_letter (h : CleanName name) (n : Nat) :
    ∃ c ∈ numbered (splitExt name).1 (splitExt name).2 n, c ≠ '.' := by
  unfold numbered
  split
  · rw [splitExt_join]
    obtain ⟨c, rest, rfl⟩ := List.exists_cons_of_ne_nil h.nonempty
    exact ⟨c, List.mem_cons_self, fun hdot => h.first (by rw [hdot]; rfl)⟩
  · exact ⟨'(', by simp, by decide⟩

/-- A name found is one of those that are tried. -/
theorem exists_numbered {free : List Char → Bool} {stem ext base : List Char} {rounds n : Nat}
    (h : tryNames free stem ext rounds n = some base) : ∃ m, base = numbered stem ext m := by
  induction rounds generalizing n with
  | zero => cases h
  | succ rounds ih =>
    rw [tryNames] at h
    split at h
    · exact ⟨n, (Option.some.inj h).symm⟩
    · exact ih h

/-- A base: its letters lead nowhere, and one of them is not a dot. -/
structure Base (base : List Char) : Prop where
  letters : ∀ c ∈ base, PlainLetter c
  letter : ∃ c ∈ base, c ≠ '.'

theorem Base.plain {base : List Char} (h : Base base) : Plain base := by
  obtain ⟨c, hc, hdot⟩ := h.letter
  exact plain_of_letters h.letters hc hdot

theorem Base.partName {base : List Char} (h : Base base) : Plain (partName base) := by
  have hpart : ∀ c ∈ ['.', 'p', 'a', 'r', 't'], PlainLetter c := by
    simp only [List.forall_mem_cons, List.not_mem_nil, false_implies, implies_true]
    decide
  refine plain_of_letters (c := 'p') (fun c hc => ?_) (by simp [Lan.partName]) (by decide)
  exact (List.mem_append.mp hc).elim (h.letters c) (hpart c)

/-- **What is found is a base**, and so is what is made up where nothing is found. -/
theorem base_of_found (h : CleanName name) {found : Option (List Char)}
    (hfound : ∀ base, found = some base →
      ∃ m, base = numbered (splitExt name).1 (splitExt name).2 m)
    (filled : Option (List UInt8)) (nowMs : Nat) :
    Base (found.getD (randomHex filled nowMs ++ ['-'] ++ name)) := by
  cases found with
  | some base =>
    obtain ⟨m, rfl⟩ := hfound base rfl
    exact ⟨numbered_letters h.letters m, numbered_letter h m⟩
  | none =>
    refine ⟨fun c hc => ?_, '-', by simp, by decide⟩
    simp only [Option.getD_none, List.mem_append, List.mem_singleton] at hc
    rcases hc with (hc | rfl) | hc
    · exact randomHex_plain filled nowMs c hc
    · decide
    · exact h.letters c hc

end

/-- The place is in the directory, and joining its name to the path of the directory leads there,
one step down, on every platform. -/
def DirectChild (dir : List Component) (place : Place (List Component)) : Prop :=
  place.1 = dir ∧ ∀ p : Platform, p.push dir place.2 = some (dir ++ [.normal place.2])

theorem directChild_of_plain {dir : List Component} {name : List Char} (h : Plain name) :
    DirectChild dir (dir, name) :=
  ⟨rfl, fun p => h.push p dir⟩

/-- **Received files stay in the receive directory**: whatever name is offered and whatever files
there are, the name is clean, and the `.part`, the reserved place and the one chosen at the end are
direct children of the directory. -/
theorem received_stay (raw : List Char) (dir : List Component)
    (files : Directory (Place (List Component))) (filled : Option (List UInt8)) (nowMs : Nat) :
    let name := sanitizeName raw
    let random := randomHex filled nowMs
    CleanName name ∧
      DirectChild dir (reservePair files dir name random).1 ∧
      DirectChild dir (reservePair files dir name random).2 ∧
      DirectChild dir (uniqueFinal files dir name random) := by
  intro name random
  have hclean : CleanName name := sanitizeName_clean raw
  have hpair : Base ((freePair files dir name).getD (random ++ ['-'] ++ name)) :=
    base_of_found hclean (fun _ => exists_numbered) filled nowMs
  have hfinal : Base ((freeFinal files dir name).getD (random ++ ['-'] ++ name)) :=
    base_of_found hclean (fun _ => exists_numbered) filled nowMs
  exact ⟨hclean, directChild_of_plain hpair.partName, directChild_of_plain hpair.plain,
    directChild_of_plain hfinal.plain⟩

end XferRust.Lan
