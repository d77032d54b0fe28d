import XferRust.Bencode.Parser

/-! # The grammar of the decoder

A `Tree` is a value as it is written: the spelling of its integers, and the entries of its
dictionaries in the order of the input, repeated keys included.  The decoder accepts exactly the
texts of valid trees that are not too deep, and returns what the tree stands for.  Everything
about accepted inputs is then a statement about trees.
-/
namespace XferRust.Bencode

inductive Tree
  /-- The text between `i` and `e`. -/
  | int (text : List UInt8)
  | bytes (b : List UInt8)
  | list (items : List Tree)
  | dict (entries : List (Key × Tree))

namespace Tree

/-- The bytes of the tree. -/
def text : Tree → List UInt8
  | .int s => intTag :: (s ++ [endTag])
  | .bytes b => bytesText b
  | .list items => listTag :: (textItems items ++ [endTag])
  | .dict entries => dictTag :: (textEntries entries ++ [endTag])
where
  textItems : List Tree → List UInt8
    | [] => []
    | t :: ts => t.text ++ textItems ts
  textEntries : List (Key × Tree) → List UInt8
    | [] => []
    | (k, t) :: es => bytesText k ++ t.text ++ textEntries es

/-- What the tree stands for: of two entries with one key the later counts. -/
def value : Tree → Value
  | .int s => .int ((parseI64 s).getD 0)
  | .bytes b => .bytes b
  | .list items => .list (valueItems items)
  | .dict entries => .dict (valueEntries entries [])
where
  valueItems : List Tree → List Value
    | [] => []
    | t :: ts => t.value :: valueItems ts
  valueEntries : List (Key × Tree) → List (Key × Value) → List (Key × Value)
    | [], map => map
    | (k, t) :: es, map => valueEntries es (SortedMap.insertEntry k t.value map)

def depth : Tree → Nat
  | .int _ => 0
  | .bytes _ => 0
  | .list items => depthItems items
  | .dict entries => depthEntries entries
where
  depthItems : List Tree → Nat
    | [] => 0
    | t :: ts => max (t.depth + 1) (depthItems ts)
  depthEntries : List (Key × Tree) → Nat
    | [] => 0
    | (_, t) :: es => max (t.depth + 1) (depthEntries es)

/-- `P` holds of the tree and of every tree in it. -/
def All (P : Tree → Prop) : Tree → Prop
  | .int s => P (.int s)
  | .bytes b => P (.bytes b)
  | .list items => P (.list items) ∧ allItems P items
  | .dict entries => P (.dict entries) ∧ allEntries P entries
where
  allItems (P : Tree → Prop) : List Tree → Prop
    | [] => True
    | t :: ts => t.All P ∧ allItems P ts
  allEntries (P : Tree → Prop) : List (Key × Tree) → Prop
    | [] => True
    | (_, t) :: es => t.All P ∧ allEntries P es

/-- An integer is one that `i64` holds, and the length of a string one that `u64` holds. -/
def ValidNode : Tree → Prop
  | .int s => intTextValid s = true ∧ (parseI64 s).isSome = true
  | .bytes b => b.length < 18446744073709551616
  | .list _ => True
  | .dict entries => ∀ e ∈ entries, e.1.length < 18446744073709551616

def Valid (t : Tree) : Prop := t.All ValidNode

variable {P : Tree → Prop}

theorem allItems_iff {ts : List Tree} : All.allItems P ts ↔ ∀ t ∈ ts, t.All P := by
  induction ts with
  | nil => simp [All.allItems]
  | cons t ts ih => simp [All.allItems, ih]

theorem allEntries_iff {es : List (Key × Tree)} : All.allEntries P es ↔ ∀ e ∈ es, e.2.All P := by
  induction es with
  | nil => simp [All.allEntries]
  | cons e es ih => simp [All.allEntries, ih]

theorem depthItems_le {ts : List Tree} {n : Nat} :
    depth.depthItems ts ≤ n ↔ ∀ t ∈ ts, t.depth + 1 ≤ n := by
  induction ts with
  | nil => simp [depth.depthItems]
  | cons t ts ih => simp only [depth.depthItems, List.forall_mem_cons, ← ih]; omega

theorem depthEntries_le {es : List (Key × Tree)} {n : Nat} :
    depth.depthEntries es ≤ n ↔ ∀ e ∈ es, e.2.depth + 1 ≤ n := by
  induction es with
  | nil => simp [depth.depthEntries]
  | cons e es ih => simp only [depth.depthEntries, List.forall_mem_cons, ← ih]; omega

/-- Induction with the claim for all members of a list or a dictionary. -/
theorem induct (int : ∀ s, P (.int s)) (bytes : ∀ b, P (.bytes b))
    (list : ∀ items, (∀ t ∈ items, P t) → P (.list items))
    (dict : ∀ entries, (∀ e ∈ entries, P e.2) → P (.dict entries)) (t : Tree) : P t := by
  refine @Tree.rec P (fun ts => ∀ t ∈ ts, P t) (fun es => ∀ e ∈ es, P e.2) (fun e => P e.2)
    int bytes list dict nofun (fun t ts ht hts => ?_) nofun (fun e es he hes => ?_)
    (fun k t ht => ht) t
  · exact List.forall_mem_cons.mpr ⟨ht, hts⟩
  · exact List.forall_mem_cons.mpr ⟨he, hes⟩

theorem textItems_eq (ts : List Tree) : text.textItems ts = ts.flatMap text := by
  induction ts with
  | nil => rfl
  | cons t ts ih => rw [text.textItems, ih, List.flatMap_cons]

/-- The bytes of an entry. -/
def entryText (e : Key × Tree) : List UInt8 := bytesText e.1 ++ e.2.text

theorem textEntries_eq (es : List (Key × Tree)) : text.textEntries es = es.flatMap entryText := by
  induction es with
  | nil => rfl
  | cons e es ih => rw [text.textEntries, ih, List.flatMap_cons, entryText]

theorem valueItems_eq (ts : List Tree) : value.valueItems ts = ts.map value := by
  induction ts with
  | nil => rfl
  | cons t ts ih => rw [value.valueItems, ih, List.map_cons]

end Tree

/-! ## Positions -/

theorem except_bind_ok {ε α β : Type} {x : Except ε α} {f : α → Except ε β} {b : β} : (x >>= f) = .ok b ↔ ∃ a, x = .ok a ∧ f a = .ok b := by
  cases x with
  | error e => exact ⟨nofun, nofun⟩
  | ok a => exact ⟨fun h => ⟨a, rfl, h⟩, fun ⟨_, h, hf⟩ => Except.ok.inj h ▸ hf⟩

namespace Parser

/-- `q` is `p` behind `text`. -/
structure Consumes (p q : Parser) (text : List UInt8) : Prop where
  rest : p.rest = text ++ q.rest
  eq : q = p.advance text.length

theorem rest_advance (p : Parser) (n : Nat) : (p.advance n).rest = p.rest.drop n := by
  rw [rest, rest, advance, List.drop_drop]

theorem peek_eq (p : Parser) : p.peek = p.rest.head? := by
  rw [peek, rest, List.head?_drop]

theorem rest_length (p : Parser) : p.rest.length = p.input.length - p.pos := List.length_drop

theorem advance_advance (p : Parser) (m n : Nat) : (p.advance m).advance n = p.advance (m + n) := by
  simp only [advance, Nat.add_assoc]

variable {p : Parser} {text : List UInt8}

theorem consumes_advance {tail : List UInt8} (h : p.rest = text ++ tail) :
    p.Consumes (p.advance text.length) text := by
  refine ⟨?_, rfl⟩
  rw [rest_advance, h, List.drop_left]

theorem rest_of_eq {tail : List UInt8} (h : p.rest = text ++ tail) :
    (p.advance text.length).rest = tail := by
  rw [rest_advance, h, List.drop_left]

theorem Consumes.trans {q r : Parser} {s t : List UInt8} (h : p.Consumes q s)
    (h' : q.Consumes r t) : p.Consumes r (s ++ t) := by
  refine ⟨?_, ?_⟩
  · rw [h.rest, h'.rest, List.append_assoc]
  · rw [h'.eq, h.eq, advance_advance, List.length_append]

theorem consumes_one {b : UInt8} (h : p.peek = some b) : p.Consumes (p.advance 1) [b] := by
  rw [peek_eq] at h
  obtain ⟨tail, htail⟩ := List.head?_eq_some_iff.mp h
  exact @consumes_advance p [b] tail htail

theorem Consumes.length {q : Parser} (h : p.Consumes q text) :
    q.rest.length + text.length = p.rest.length := by
  rw [h.rest, List.length_append, Nat.add_comm]

end Parser

namespace Parser
variable {p : Parser} {f : UInt8 → Bool}

/-- What stands before a byte that ends a run. -/
theorem run_eq {xs tail : List UInt8} {b : UInt8} (hp : p.rest = xs ++ b :: tail)
    (hxs : ∀ x ∈ xs, f x = true) (hb : f b = false) : p.run f = xs := by
  rw [run, hp, List.takeWhile_append_of_pos hxs, List.takeWhile_cons_of_neg (by rw [hb]; decide),
    List.append_nil]

theorem run_all : ∀ x ∈ p.run f, f x = true := fun _ hx =>
  List.all_eq_true.mp List.all_takeWhile _ hx

theorem consumes_run : p.Consumes (p.advance (p.run f).length) (p.run f) := by
  have h := @List.takeWhile_append_dropWhile _ f p.rest
  exact consumes_advance h.symm

/-- The byte behind a run ends it. -/
theorem not_of_peek_run {b : UInt8} (h : (p.advance (p.run f).length).peek = some b) :
    f b = false := by
  have hsplit := @List.takeWhile_append_dropWhile _ f p.rest
  have hrest : (p.advance (p.run f).length).rest = p.rest.dropWhile f := rest_of_eq hsplit.symm
  rw [peek_eq, hrest] at h
  have hnot := List.head?_dropWhile_not f p.rest
  rw [h] at hnot
  simpa using hnot

end Parser

/-! ## Integers -/

variable {tail text : List UInt8} {p q : Parser} {levels : Nat}

theorem splitSign_all {b : UInt8} (h : (splitSign text).2.all Decimal.isDigit) (hb : b ∈ text) :
    Decimal.isDigit b = true ∨ b = minus ∨ b = plus := by
  cases text with
  | nil => cases hb
  | cons c ds =>
    simp only [splitSign] at h
    split at h
    · rename_i hc
      rcases List.mem_cons.mp hb with rfl | hb
      · exact .inr (.inl hc)
      · exact .inl (List.all_eq_true.mp h b hb)
    · split at h
      · rename_i hc
        rcases List.mem_cons.mp hb with rfl | hb
        · exact .inr (.inr hc)
        · exact .inl (List.all_eq_true.mp h b hb)
      · exact .inl (List.all_eq_true.mp h b hb)

/-- A text that is an integer has digits behind its sign. -/
theorem parseI64_some {i : Int64} (h : parseI64 text = some i) :
    (splitSign text).2 ≠ [] ∧ ((splitSign text).2.all Decimal.isDigit) = true ∧
      (if (splitSign text).1 then
        Decimal.value (splitSign text).2 ≤ 9223372036854775808 ∧
          i = Int64.ofInt (-Decimal.value (splitSign text).2)
      else
        Decimal.value (splitSign text).2 < 9223372036854775808 ∧
          i = Int64.ofInt (Decimal.value (splitSign text).2)) := by
  simp only [parseI64] at h
  split at h
  · cases h
  rename_i hds
  simp only [Bool.or_eq_true, Bool.not_eq_true', not_or, Bool.not_eq_true, Bool.not_eq_false,
    List.isEmpty_eq_false_iff] at hds
  refine ⟨hds.1, hds.2, ?_⟩
  split at h
  · rename_i hneg
    rw [if_pos hneg]
    split at h
    · rename_i hle
      exact ⟨hle, (Option.some.inj h).symm⟩
    · cases h
  · rename_i hneg
    rw [if_neg hneg]
    split at h
    · rename_i hlt
      exact ⟨hlt, (Option.some.inj h).symm⟩
    · cases h

theorem notEnd_of_mem (h : (parseI64 text).isSome = true) : ∀ b ∈ text, notEnd b = true := by
  obtain ⟨i, hi⟩ := Option.isSome_iff_exists.mp h
  intro b hb
  rcases splitSign_all (parseI64_some hi).2.1 hb with hd | rfl | rfl
  · rw [Decimal.isDigit_iff] at hd
    refine bne_iff_ne.mpr fun he => ?_
    rw [he] at hd
    exact absurd hd.2 (by decide)
  · rfl
  · rfl

theorem parseInt_complete {s : List UInt8} (hvalid : intTextValid s = true)
    (hint : (parseI64 s).isSome = true) (hp : p.rest = (Tree.int s).text ++ tail) :
    parseInt p = .ok ((Tree.int s).value, p.advance (Tree.int s).text.length) := by
  obtain ⟨i, hi⟩ := Option.isSome_iff_exists.mp hint
  have hrest : (p.advance 1).rest = s ++ endTag :: tail := by
    rw [Parser.rest_advance, hp]
    simp [Tree.text]
  have htext : (p.advance 1).run notEnd = s :=
    Parser.run_eq hrest (notEnd_of_mem hint) (by decide)
  have hpeek : ((p.advance 1).advance s.length).peek = some endTag := by
    rw [Parser.peek_eq, Parser.rest_of_eq hrest]
    rfl
  have hlen : (Tree.int s).text.length = 1 + (s.length + 1) := by
    simp [Tree.text]
    omega
  simp only [parseInt, htext, hpeek, hvalid, hi, Bool.not_true, Bool.false_eq_true, if_false,
    reduceCtorEq, Tree.value, Option.getD_some]
  rw [hlen, Parser.advance_advance, Parser.advance_advance]

theorem parseInt_sound {v : Value} (hp : p.peek = some intTag) (h : parseInt p = .ok (v, q)) :
    ∃ s, intTextValid s = true ∧ (parseI64 s).isSome = true ∧ v = (Tree.int s).value ∧
      p.Consumes q (Tree.int s).text := by
  have h₁ := Parser.consumes_one hp
  have h₂ : (p.advance 1).Consumes _ ((p.advance 1).run notEnd) := Parser.consumes_run
  have hstop := fun b => @Parser.not_of_peek_run (p.advance 1) notEnd b
  simp only [parseInt] at h
  generalize (p.advance 1).run notEnd = s at h h₂ hstop
  split at h
  · cases h
  rename_i hpeek
  split at h
  · cases h
  rename_i hvalid
  split at h
  · cases h
  rename_i i hi
  obtain ⟨rfl, rfl⟩ := Prod.mk.inj (Except.ok.inj h)
  -- the run ends at an `e`
  have hend : ((p.advance 1).advance s.length).peek = some endTag := by
    obtain ⟨b, hb⟩ := Option.ne_none_iff_exists'.mp hpeek
    have := hstop b hb
    simp only [notEnd, bne_eq_false_iff_eq] at this
    rw [hb, this]
  refine ⟨s, by simpa using hvalid, by rw [hi]; rfl, by rw [Tree.value, hi]; rfl, ?_⟩
  have := h₁.trans (h₂.trans (Parser.consumes_one hend))
  simpa [Tree.text] using this

/-! ## Strings -/

theorem parseLength_complete {n : Nat} (hn : n < 18446744073709551616)
    (hp : p.rest = Decimal.digits n ++ colon :: tail) :
    parseLength p = .ok (n, p.advance ((Decimal.digits n).length + 1)) := by
  have hcanonical := Decimal.canonical_digits n
  have htext : p.run Decimal.isDigit = Decimal.digits n :=
    Parser.run_eq hp hcanonical.2.1 (by decide)
  have hpeek : (p.advance (Decimal.digits n).length).peek = some colon := by
    rw [Parser.peek_eq, Parser.rest_of_eq hp]
    rfl
  have hzero : ((Decimal.digits n).head? = some zero && (Decimal.digits n).length > 1) = false := by
    by_cases hhead : (Decimal.digits n).head? = some zero
    · simp [hcanonical.2.2 hhead]
    · simp [hhead]
  have hparse : parseU64 (Decimal.digits n) = some n := by
    rw [parseU64, Decimal.value_digits, if_pos hn, if_neg]
    exact fun h => hcanonical.1 (List.isEmpty_iff.mp h)
  simp only [parseLength, htext, hpeek, hzero, hparse, ne_eq, not_true_eq_false, if_false,
    Bool.false_eq_true, Parser.advance_advance]

theorem parseLength_sound {n : Nat} (h : parseLength p = .ok (n, q)) :
    n < 18446744073709551616 ∧ p.Consumes q (Decimal.digits n ++ [colon]) := by
  have h₁ : p.Consumes _ (p.run Decimal.isDigit) := Parser.consumes_run
  have hdigits := @Parser.run_all p Decimal.isDigit
  simp only [parseLength] at h
  generalize p.run Decimal.isDigit = text at h h₁ hdigits
  split at h
  · cases h
  rename_i b hpeek
  split at h
  · cases h
  rename_i hb
  split at h
  · cases h
  rename_i hzero
  split at h
  · cases h
  rename_i n' hparse
  obtain ⟨rfl, rfl⟩ := Prod.mk.inj (Except.ok.inj h)
  obtain rfl : b = colon := Classical.not_not.mp hb
  simp only [parseU64] at hparse
  split at hparse
  · cases hparse
  rename_i hne
  split at hparse
  · rename_i hlt
    obtain rfl := Option.some.inj hparse
    simp only [Bool.and_eq_true, decide_eq_true_eq, not_and, Nat.not_lt] at hzero
    have hne' : text ≠ [] := fun h => hne (List.isEmpty_iff.mpr h)
    have hpos := List.length_pos_iff.mpr hne'
    -- a run of digits without a leading zero is the numeral of its value
    have hcanonical : Decimal.Canonical text :=
      ⟨hne', hdigits, fun hhead => Nat.le_antisymm (hzero hhead) hpos⟩
    rw [Decimal.digits_value hcanonical]
    exact ⟨hlt, h₁.trans (Parser.consumes_one hpeek)⟩
  · cases hparse

theorem bytesText_length (b : List UInt8) :
    (bytesText b).length = (Decimal.digits b.length).length + 1 + b.length := by
  rw [bytesText, List.length_append, List.length_cons]
  omega

theorem parseRawBytes_complete {b : List UInt8} (hb : b.length < 18446744073709551616)
    (hp : p.rest = bytesText b ++ tail) :
    parseRawBytes p = .ok (b, p.advance (bytesText b).length) := by
  have hp' : p.rest = Decimal.digits b.length ++ colon :: (b ++ tail) := by
    rw [hp, bytesText, List.append_assoc, List.cons_append]
  have hrest : (p.advance ((Decimal.digits b.length).length + 1)).rest = b ++ tail := by
    have hsplit : p.rest = (Decimal.digits b.length ++ [colon]) ++ (b ++ tail) := by
      rw [hp', List.append_assoc]
      rfl
    have := Parser.rest_of_eq hsplit
    rwa [List.length_append] at this
  have hlen := Parser.rest_length (p.advance ((Decimal.digits b.length).length + 1))
  rw [hrest, List.length_append] at hlen
  refine except_bind_ok.mpr ⟨_, parseLength_complete hb hp', ?_⟩
  dsimp only
  rw [if_neg (by omega), hrest, List.take_left, Parser.advance_advance, bytesText_length]

theorem parseRawBytes_sound {b : List UInt8} (h : parseRawBytes p = .ok (b, q)) :
    b.length < 18446744073709551616 ∧ p.Consumes q (bytesText b) := by
  obtain ⟨⟨n, p'⟩, hlength, h⟩ := except_bind_ok.mp h
  obtain ⟨hn, h₁⟩ := parseLength_sound hlength
  dsimp only at h
  split at h
  · cases h
  rename_i hle
  obtain ⟨rfl, rfl⟩ := Prod.mk.inj (Except.ok.inj h)
  have hlen : (p'.rest.take n).length = n := by
    rw [List.length_take, Parser.rest_length]
    omega
  refine ⟨by rw [hlen]; exact hn, ?_⟩
  have h₂ := Parser.consumes_advance (List.take_append_drop n p'.rest).symm
  rw [hlen] at h₂
  have := h₁.trans h₂
  rw [List.append_assoc] at this
  rw [bytesText, hlen]
  exact this

/-! ## Lists and dictionaries -/

/-- `item` accepts exactly the texts of the valid trees that open fewer than `levels` levels. -/
structure Parses (item : Parser → Except BencodeError (Value × Parser)) (levels : Nat) : Prop where
  sound : ∀ p q v, item p = .ok (v, q) →
    ∃ t : Tree, t.Valid ∧ t.depth < levels ∧ v = t.value ∧ p.Consumes q t.text
  complete : ∀ p (t : Tree) tail, t.Valid → t.depth < levels → p.rest = t.text ++ tail →
    item p = .ok (t.value, p.advance t.text.length)

theorem bytesText_head (b : List UInt8) :
    ∃ d ds, bytesText b = d :: ds ∧ Decimal.isDigit d = true := by
  obtain ⟨d, ds, hds⟩ := List.exists_cons_of_ne_nil (Decimal.digits_ne_nil b.length)
  refine ⟨d, ds ++ colon :: b, by rw [bytesText, hds, List.cons_append], ?_⟩
  exact Decimal.isDigit_of_mem_digits (by rw [hds]; exact List.mem_cons_self)

theorem ne_endTag_of_isDigit {d : UInt8} (h : Decimal.isDigit d = true) : d ≠ endTag := by
  rintro rfl
  exact absurd h (by decide)

/-- No tree begins with the byte that ends a list. -/
theorem Tree.text_head (t : Tree) : ∃ b bs, t.text = b :: bs ∧ b ≠ endTag := by
  cases t with
  | int s => exact ⟨_, _, rfl, by decide⟩
  | bytes b =>
    obtain ⟨d, ds, hds, hd⟩ := bytesText_head b
    exact ⟨d, ds, hds, ne_endTag_of_isDigit hd⟩
  | list items => exact ⟨_, _, rfl, by decide⟩
  | dict entries => exact ⟨_, _, rfl, by decide⟩

theorem Tree.text_ne_nil (t : Tree) : t.text ≠ [] := by
  obtain ⟨b, bs, hbs, -⟩ := t.text_head
  rw [hbs]
  exact List.cons_ne_nil b bs

theorem Tree.entryText_ne_nil (e : Key × Tree) : entryText e ≠ [] := by
  obtain ⟨b, bs, hbs, -⟩ := bytesText_head e.1
  rw [entryText, hbs]
  exact List.cons_ne_nil b _

theorem length_le_flatMap {α : Type} {f : α → List UInt8} (hf : ∀ a, f a ≠ []) (xs : List α) :
    xs.length ≤ (xs.flatMap f).length := by
  induction xs with
  | nil => exact Nat.le_refl _
  | cons x xs ih =>
    have := List.length_pos_iff.mpr (hf x)
    rw [List.flatMap_cons, List.length_append, List.length_cons]
    omega

section Loops
variable {item : Parser → Except BencodeError (Value × Parser)} {levels : Nat}
variable {fuel : Nat} {p : Parser}

theorem listLoop_complete (h : Parses item levels) {ts : List Tree} {tail : List UInt8}
    (hts : ∀ t ∈ ts, t.Valid ∧ t.depth < levels) (hfuel : ts.length < fuel) {acc : List Value}
    (hp : p.rest = ts.flatMap Tree.text ++ endTag :: tail) :
    listLoop item fuel acc p = .ok (.list (acc ++ ts.map Tree.value),
      p.advance ((ts.flatMap Tree.text).length + 1)) := by
  induction ts generalizing fuel acc p with
  | nil =>
    obtain ⟨fuel, rfl⟩ := Nat.exists_eq_add_of_lt hfuel
    have hpeek : p.peek = some endTag := by rw [Parser.peek_eq, hp]; rfl
    simp only [listLoop, hpeek, if_true, List.map_nil, List.append_nil]
    rfl
  | cons t ts ih =>
    obtain ⟨fuel, rfl⟩ : ∃ n, fuel = n + 1 := ⟨fuel - 1, by omega⟩
    rw [List.flatMap_cons, List.append_assoc] at hp
    obtain ⟨⟨hvalid, hdepth⟩, hrest⟩ := List.forall_mem_cons.mp hts
    obtain ⟨b, bs, hbs, hb⟩ := t.text_head
    have hpeek : p.peek = some b := by rw [Parser.peek_eq, hp, hbs]; rfl
    simp only [listLoop, hpeek, if_neg hb]
    refine except_bind_ok.mpr ⟨_, h.complete p t _ hvalid hdepth hp, ?_⟩
    have hlen : ts.length < fuel := Nat.lt_of_succ_lt_succ hfuel
    rw [ih hrest hlen (Parser.rest_of_eq hp), Parser.advance_advance, List.append_assoc,
      List.flatMap_cons, List.length_append, List.map_cons, Nat.add_assoc]
    rfl

theorem listLoop_sound (h : Parses item levels) {acc : List Value} {q : Parser} {v : Value}
    (hv : listLoop item fuel acc p = .ok (v, q)) :
    ∃ ts : List Tree, (∀ t ∈ ts, t.Valid ∧ t.depth < levels) ∧
      v = .list (acc ++ ts.map Tree.value) ∧
      p.Consumes q (ts.flatMap Tree.text ++ [endTag]) := by
  induction fuel generalizing acc p with
  | zero => cases hv
  | succ fuel ih =>
    rw [listLoop] at hv
    split at hv
    · cases hv
    rename_i b hpeek
    split at hv
    · rename_i hb
      subst hb
      obtain ⟨rfl, rfl⟩ := Prod.mk.inj (Except.ok.inj hv)
      refine ⟨[], nofun, by rw [List.map_nil, List.append_nil], ?_⟩
      exact Parser.consumes_one hpeek
    · obtain ⟨⟨w, p'⟩, hitem, hv⟩ := except_bind_ok.mp hv
      obtain ⟨t, hvalid, hdepth, rfl, hcons⟩ := h.sound _ _ _ hitem
      obtain ⟨ts, hts, rfl, hrest⟩ := ih hv
      refine ⟨t :: ts, List.forall_mem_cons.mpr ⟨⟨hvalid, hdepth⟩, hts⟩, ?_, ?_⟩
      · rw [List.append_assoc, List.map_cons]
        rfl
      · rw [List.flatMap_cons, List.append_assoc]
        exact hcons.trans hrest

/-- The entries of a dictionary, put into a map one after the other. -/
abbrev insertAll (es : List (Key × Tree)) (map : List (Key × Value)) : List (Key × Value) :=
  Tree.value.valueEntries es map

theorem dictLoop_complete (h : Parses item levels) {es : List (Key × Tree)} {tail : List UInt8}
    (hes : ∀ e ∈ es, e.1.length < 18446744073709551616 ∧ e.2.Valid ∧ e.2.depth < levels)
    (hfuel : es.length < fuel) {map : List (Key × Value)}
    (hp : p.rest = es.flatMap Tree.entryText ++ endTag :: tail) :
    dictLoop item fuel map p = .ok (.dict (insertAll es map),
      p.advance ((es.flatMap Tree.entryText).length + 1)) := by
  induction es generalizing fuel map p with
  | nil =>
    obtain ⟨fuel, rfl⟩ := Nat.exists_eq_add_of_lt hfuel
    have hpeek : p.peek = some endTag := by rw [Parser.peek_eq, hp]; rfl
    simp only [dictLoop, hpeek, if_true]
    rfl
  | cons e es ih =>
    obtain ⟨k, t⟩ := e
    obtain ⟨fuel, rfl⟩ : ∃ n, fuel = n + 1 := ⟨fuel - 1, by omega⟩
    rw [List.flatMap_cons, Tree.entryText, List.append_assoc, List.append_assoc] at hp
    obtain ⟨⟨hkey, hvalid, hdepth⟩, hrest⟩ := List.forall_mem_cons.mp hes
    obtain ⟨b, bs, hbs, hb⟩ := bytesText_head k
    have hpeek : p.peek = some b := by rw [Parser.peek_eq, hp, hbs]; rfl
    simp only [dictLoop, hpeek, if_neg (ne_endTag_of_isDigit hb), if_pos hb]
    refine except_bind_ok.mpr ⟨_, parseRawBytes_complete hkey hp, ?_⟩
    have hp₂ := Parser.rest_of_eq hp
    refine except_bind_ok.mpr ⟨_, h.complete _ t _ hvalid hdepth hp₂, ?_⟩
    have hlen : es.length < fuel := Nat.lt_of_succ_lt_succ hfuel
    rw [ih hrest hlen (Parser.rest_of_eq hp₂), Parser.advance_advance, Parser.advance_advance,
      List.flatMap_cons, List.length_append, Tree.entryText, List.length_append, Nat.add_assoc,
      Nat.add_assoc, Nat.add_assoc]
    rfl

theorem dictLoop_sound (h : Parses item levels) {map : List (Key × Value)} {q : Parser} {v : Value}
    (hv : dictLoop item fuel map p = .ok (v, q)) :
    ∃ es : List (Key × Tree),
      (∀ e ∈ es, e.1.length < 18446744073709551616 ∧ e.2.Valid ∧ e.2.depth < levels) ∧
      v = .dict (insertAll es map) ∧ p.Consumes q (es.flatMap Tree.entryText ++ [endTag]) := by
  induction fuel generalizing map p with
  | zero => cases hv
  | succ fuel ih =>
    rw [dictLoop] at hv
    split at hv
    · cases hv
    rename_i b hpeek
    split at hv
    · rename_i hb
      subst hb
      obtain ⟨rfl, rfl⟩ := Prod.mk.inj (Except.ok.inj hv)
      exact ⟨[], nofun, rfl, Parser.consumes_one hpeek⟩
    · split at hv
      · obtain ⟨⟨k, p₁⟩, hkey, hv⟩ := except_bind_ok.mp hv
        obtain ⟨⟨w, p₂⟩, hitem, hv⟩ := except_bind_ok.mp hv
        obtain ⟨hlen, hcons₁⟩ := parseRawBytes_sound hkey
        obtain ⟨t, hvalid, hdepth, rfl, hcons₂⟩ := h.sound _ _ _ hitem
        obtain ⟨es, hes, rfl, hrest⟩ := ih hv
        refine ⟨(k, t) :: es, List.forall_mem_cons.mpr ⟨⟨hlen, hvalid, hdepth⟩, hes⟩, rfl, ?_⟩
        rw [List.flatMap_cons, List.append_assoc, Tree.entryText, List.append_assoc]
        exact hcons₁.trans (hcons₂.trans hrest)
      · cases hv

end Loops

/-! ## Values -/

theorem tree_list_depth {ts : List Tree} :
    (Tree.list ts).depth < levels + 1 ↔ ∀ t ∈ ts, t.depth < levels := by
  rw [Nat.lt_succ_iff]
  exact Tree.depthItems_le

theorem tree_dict_depth {es : List (Key × Tree)} :
    (Tree.dict es).depth < levels + 1 ↔ ∀ e ∈ es, e.2.depth < levels := by
  rw [Nat.lt_succ_iff]
  exact Tree.depthEntries_le

theorem tree_list_text (ts : List Tree) :
    (Tree.list ts).text = listTag :: (ts.flatMap Tree.text ++ [endTag]) := by
  rw [Tree.text, Tree.textItems_eq]

theorem tree_dict_text (es : List (Key × Tree)) :
    (Tree.dict es).text = dictTag :: (es.flatMap Tree.entryText ++ [endTag]) := by
  rw [Tree.text, Tree.textEntries_eq]

theorem tree_list_value (ts : List Tree) : (Tree.list ts).value = .list (ts.map Tree.value) := by
  rw [Tree.value, Tree.valueItems_eq]

theorem tree_list_valid {ts : List Tree} : (Tree.list ts).Valid ↔ ∀ t ∈ ts, t.Valid := by
  simp only [Tree.Valid, Tree.All, Tree.ValidNode, true_and, Tree.allItems_iff]

theorem tree_dict_valid {es : List (Key × Tree)} :
    (Tree.dict es).Valid ↔ (∀ e ∈ es, e.1.length < 18446744073709551616) ∧
      ∀ e ∈ es, e.2.Valid := by
  simp only [Tree.Valid, Tree.All, Tree.ValidNode, Tree.allEntries_iff]

theorem parseValue_complete (ih : Parses (parseValue levels) levels) (p : Parser) (t : Tree)
    (tail : List UInt8) (hvalid : t.Valid) (hdepth : t.depth < levels + 1)
    (hp : p.rest = t.text ++ tail) :
    parseValue (levels + 1) p = .ok (t.value, p.advance t.text.length) := by
  cases t with
  | int s =>
    have hpeek : p.peek = some intTag := by rw [Parser.peek_eq, hp]; rfl
    simp only [parseValue, hpeek, if_true]
    exact parseInt_complete hvalid.1 hvalid.2 hp
  | bytes b =>
    obtain ⟨d, ds, hds, hd⟩ := bytesText_head b
    have hpeek : p.peek = some d := by rw [Parser.peek_eq, hp, Tree.text, hds]; rfl
    have hne : ∀ c : UInt8, Decimal.isDigit c = false → d ≠ c := by
      rintro c hc rfl
      rw [hd] at hc
      cases hc
    simp only [parseValue, hpeek, if_neg (hne intTag (by decide)),
      if_neg (hne listTag (by decide)), if_neg (hne dictTag (by decide)), if_pos hd]
    exact except_bind_ok.mpr ⟨_, parseRawBytes_complete hvalid hp, rfl⟩
  | list ts =>
    rw [tree_list_text, List.cons_append, List.append_assoc] at hp
    have hpeek : p.peek = some listTag := by rw [Parser.peek_eq, hp]; rfl
    have hrest : (p.advance 1).rest = ts.flatMap Tree.text ++ endTag :: tail :=
      @Parser.rest_of_eq p [listTag] _ hp
    have hmem : ∀ t ∈ ts, t.Valid ∧ t.depth < levels := fun t ht =>
      ⟨tree_list_valid.mp hvalid t ht, tree_list_depth.mp hdepth t ht⟩
    have hfuel : ts.length < (p.advance 1).rest.length := by
      have := length_le_flatMap Tree.text_ne_nil ts
      rw [hrest, List.length_append, List.length_cons]
      omega
    simp only [parseValue, hpeek, if_neg (show listTag ≠ intTag by decide), if_true]
    rw [listLoop_complete ih hmem hfuel hrest, Parser.advance_advance, tree_list_value,
      tree_list_text, List.length_cons, List.length_append, List.length_singleton, List.nil_append,
      Nat.add_comm 1]
  | dict es =>
    rw [tree_dict_text, List.cons_append, List.append_assoc] at hp
    have hpeek : p.peek = some dictTag := by rw [Parser.peek_eq, hp]; rfl
    have hrest : (p.advance 1).rest = es.flatMap Tree.entryText ++ endTag :: tail :=
      @Parser.rest_of_eq p [dictTag] _ hp
    obtain ⟨hkeys, hvalues⟩ := tree_dict_valid.mp hvalid
    have hmem : ∀ e ∈ es, e.1.length < 18446744073709551616 ∧ e.2.Valid ∧ e.2.depth < levels :=
      fun e he => ⟨hkeys e he, hvalues e he, tree_dict_depth.mp hdepth e he⟩
    have hfuel : es.length < (p.advance 1).rest.length := by
      have := length_le_flatMap Tree.entryText_ne_nil es
      rw [hrest, List.length_append, List.length_cons]
      omega
    simp only [parseValue, hpeek, if_neg (show dictTag ≠ intTag by decide),
      if_neg (show dictTag ≠ listTag by decide), if_true]
    rw [dictLoop_complete ih hmem hfuel hrest, Parser.advance_advance, tree_dict_text,
      List.length_cons, List.length_append, List.length_singleton, Nat.add_comm 1]
    rfl

theorem parseValue_sound (ih : Parses (parseValue levels) levels) (p q : Parser) (v : Value)
    (h : parseValue (levels + 1) p = .ok (v, q)) :
    ∃ t : Tree, t.Valid ∧ t.depth < levels + 1 ∧ v = t.value ∧ p.Consumes q t.text := by
  rw [parseValue] at h
  split at h
  · cases h
  rename_i b hpeek
  have h₁ := Parser.consumes_one hpeek
  split at h
  · rename_i hb
    subst hb
    obtain ⟨s, hvalid, hint, rfl, hcons⟩ := parseInt_sound hpeek h
    exact ⟨.int s, ⟨hvalid, hint⟩, Nat.succ_pos _, rfl, hcons⟩
  split at h
  · rename_i hb
    subst hb
    obtain ⟨ts, hts, rfl, hcons⟩ := listLoop_sound ih h
    refine ⟨.list ts, tree_list_valid.mpr fun t ht => (hts t ht).1,
      tree_list_depth.mpr fun t ht => (hts t ht).2, by rw [tree_list_value]; rfl, ?_⟩
    rw [tree_list_text]
    exact h₁.trans hcons
  split at h
  · rename_i hb
    subst hb
    obtain ⟨es, hes, rfl, hcons⟩ := dictLoop_sound ih h
    refine ⟨.dict es, tree_dict_valid.mpr ⟨fun e he => (hes e he).1, fun e he => (hes e he).2.1⟩,
      tree_dict_depth.mpr fun e he => (hes e he).2.2, rfl, ?_⟩
    rw [tree_dict_text]
    exact h₁.trans hcons
  split at h
  · obtain ⟨⟨b, p'⟩, hbytes, h⟩ := except_bind_ok.mp h
    obtain ⟨rfl, rfl⟩ := Prod.mk.inj (Except.ok.inj h)
    obtain ⟨hlen, hcons⟩ := parseRawBytes_sound hbytes
    exact ⟨.bytes b, hlen, Nat.succ_pos _, rfl, hcons⟩
  · cases h

/-- **The parser accepts exactly the valid trees** of fewer levels than it may open. -/
theorem parseValue_parses (levels : Nat) : Parses (parseValue levels) levels := by
  induction levels with
  | zero => exact ⟨nofun, fun _ _ _ _ hdepth _ => absurd hdepth (Nat.not_lt_zero _)⟩
  | succ levels ih => exact ⟨parseValue_sound ih, parseValue_complete ih⟩

/-- What `decode` accepts, and what it returns. -/
theorem decode_ok_iff {s : List UInt8} {v : Value} :
    decode s = .ok v ↔ ∃ t : Tree, t.Valid ∧ t.depth ≤ maxDepth ∧ t.text = s ∧ t.value = v := by
  have hparses := parseValue_parses topLevels
  have hnew : (Parser.new s).rest = s := List.drop_zero
  constructor
  · intro h
    obtain ⟨⟨w, p⟩, hw, h⟩ := except_bind_ok.mp h
    obtain ⟨t, hvalid, hdepth, rfl, hcons⟩ := hparses.sound _ _ _ hw
    dsimp only at h
    split at h
    · cases h
    rename_i hend
    -- nothing is left behind the tree
    have hrest : p.rest = [] := by
      have hlen := hcons.length
      rw [hnew] at hlen
      have hpos : p.pos = t.text.length := by
        rw [hcons.eq]
        exact Nat.zero_add _
      rw [Classical.not_not.mp hend] at hpos
      exact List.length_eq_zero_iff.mp (by omega)
    have htext := hcons.rest
    rw [hnew, hrest, List.append_nil] at htext
    exact ⟨t, hvalid, Nat.le_of_lt_succ hdepth, htext.symm, Except.ok.inj h⟩
  · rintro ⟨t, hvalid, hdepth, rfl, rfl⟩
    have hp : (Parser.new t.text).rest = t.text ++ [] := by rw [hnew, List.append_nil]
    refine except_bind_ok.mpr
      ⟨_, hparses.complete _ t _ hvalid (Nat.lt_succ_of_le hdepth) hp, ?_⟩
    dsimp only
    rw [if_neg]
    exact fun hne => hne (Nat.zero_add _)

theorem decodePrefix_text {t : Tree} (hvalid : t.Valid) (hdepth : t.depth ≤ maxDepth)
    (rest : List UInt8) : decodePrefix (t.text ++ rest) = .ok (t.value, t.text.length) := by
  have hp : (Parser.new (t.text ++ rest)).rest = t.text ++ rest := List.drop_zero
  refine except_bind_ok.mpr ⟨_, (parseValue_parses topLevels).complete _ t _ hvalid
    (Nat.lt_succ_of_le hdepth) hp, ?_⟩
  exact congrArg (fun n => Except.ok (t.value, n)) (Nat.zero_add _)

end XferRust.Bencode
