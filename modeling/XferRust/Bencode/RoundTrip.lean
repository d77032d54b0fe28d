import Mathlib.Data.List.Basic
import XferRust.Bencode.Grammar

/-! # Encoding and decoding

Every proper value that is not too deep has a tree whose text is its encoding, so the decoder
reads it back.  In the other direction an accepted text whose keys ascend is the encoding of its
value, with one exception: `str::parse::<i64>` lets a plus sign through, which the encoder never
writes.
-/
namespace XferRust.Bencode

/-! ## Integers -/

theorem splitSign_digits (n : Nat) : splitSign (Decimal.digits n) = (false, Decimal.digits n) := by
  obtain ⟨d, ds, hds⟩ := List.exists_cons_of_ne_nil (Decimal.digits_ne_nil n)
  have hd : Decimal.isDigit d = true :=
    Decimal.isDigit_of_mem_digits (by rw [hds]; exact List.mem_cons_self)
  have hne : ∀ c : UInt8, Decimal.isDigit c = false → d ≠ c := by
    rintro c hc rfl
    rw [hd] at hc
    cases hc
  rw [hds, splitSign, if_neg (hne minus (by decide)), if_neg (hne plus (by decide))]

theorem digits_all (n : Nat) : (Decimal.digits n).all Decimal.isDigit = true :=
  List.all_eq_true.mpr fun _ h => Decimal.isDigit_of_mem_digits h

theorem digits_isEmpty (n : Nat) : (Decimal.digits n).isEmpty = false := by
  rw [List.isEmpty_eq_false_iff]
  exact Decimal.digits_ne_nil n

theorem parseI64_intText (i : Int64) : parseI64 (intText i) = some i := by
  have hlt := Int64.toInt_lt i
  have hge := Int64.le_toInt i
  unfold intText
  split
  · rename_i hneg
    have hsplit : splitSign (minus :: Decimal.digits i.toInt.natAbs) =
        (true, Decimal.digits i.toInt.natAbs) := rfl
    simp only [parseI64, hsplit, digits_isEmpty, digits_all, Decimal.value_digits, Bool.not_true,
      Bool.or_self, Bool.false_eq_true, if_false, if_true]
    rw [if_pos (by omega), show -((i.toInt.natAbs : Nat) : Int) = i.toInt by omega,
      Int64.ofInt_toInt]
  · rename_i hnonneg
    simp only [parseI64, splitSign_digits, digits_isEmpty, digits_all, Decimal.value_digits,
      Bool.not_true, Bool.or_self, Bool.false_eq_true, if_false]
    rw [if_pos (by omega), show ((i.toInt.natAbs : Nat) : Int) = i.toInt by omega,
      Int64.ofInt_toInt]

variable {s : List UInt8} {v : Value}

/-- The checks of `parse_int` on a text: it is no lone sign, and the numeral in it, if there is no
plus sign before it, has no leading zero. -/
theorem intTextValid_iff (hs : s ≠ []) :
    intTextValid s = true ↔
      (s.head? = some zero → s.length = 1) ∧ s.take 2 ≠ [minus, zero] ∧ s ≠ [minus] := by
  have hlen := List.length_pos_iff.mpr hs
  have hone : (s.head? = some minus ∧ s.length = 1) ↔ s = [minus] := by
    constructor
    · rintro ⟨hhead, hlen⟩
      obtain ⟨x, rfl⟩ := List.length_eq_one_iff.mp hlen
      rw [Option.some.inj hhead]
    · rintro rfl
      exact ⟨rfl, rfl⟩
  simp only [intTextValid, Bool.and_eq_true, Bool.not_eq_true', Bool.and_eq_false_iff,
    decide_eq_false_iff_not, List.isEmpty_eq_false_iff, Nat.not_lt]
  constructor
  · rintro ⟨⟨⟨-, h₁⟩, h₂⟩, h₃⟩
    refine ⟨fun hz => ?_, h₂, fun hm => ?_⟩
    · rcases h₁ with h₁ | h₁
      · exact absurd hz h₁
      · omega
    · obtain ⟨hhead, hlen'⟩ := hone.mpr hm
      rcases h₃ with h₃ | h₃
      · exact h₃ hhead
      · exact h₃ hlen'
  · rintro ⟨h₁, h₂, h₃⟩
    refine ⟨⟨⟨hs, ?_⟩, h₂⟩, ?_⟩
    · by_cases hz : s.head? = some zero
      · exact .inr (Nat.le_of_eq (h₁ hz))
      · exact .inl hz
    · by_cases hm : s.head? = some minus
      · exact .inr fun hlen => h₃ (hone.mp ⟨hm, hlen⟩)
      · exact .inl hm

theorem intTextValid_intText (i : Int64) : intTextValid (intText i) = true := by
  unfold intText
  split
  · rename_i hneg
    obtain ⟨d, ds, hds⟩ := List.exists_cons_of_ne_nil (Decimal.digits_ne_nil i.toInt.natAbs)
    rw [intTextValid_iff (List.cons_ne_nil _ _)]
    refine ⟨fun h => ?_, fun h => ?_, fun h => ?_⟩
    · exact absurd (Option.some.inj h) (by decide)
    · -- only zero is written with a leading zero
      rw [hds] at h
      obtain rfl : d = zero := by simpa using h
      have hcanonical := Decimal.canonical_digits i.toInt.natAbs
      rw [hds] at hcanonical
      obtain rfl : ds = [] := List.length_eq_zero_iff.mp (by simpa using hcanonical.2.2 rfl)
      have hvalue := Decimal.value_digits i.toInt.natAbs
      rw [hds, show Decimal.value [zero] = 0 from rfl] at hvalue
      omega
    · exact Decimal.digits_ne_nil _ (List.cons.inj h).2
  · have hcanonical := Decimal.canonical_digits i.toInt.natAbs
    have hdigit : ∀ d ∈ Decimal.digits i.toInt.natAbs, d ≠ minus := by
      rintro d hd rfl
      exact absurd (Decimal.isDigit_of_mem_digits hd) (by decide)
    obtain ⟨d, ds, hds⟩ := List.exists_cons_of_ne_nil (Decimal.digits_ne_nil i.toInt.natAbs)
    rw [intTextValid_iff (Decimal.digits_ne_nil _)]
    have hd := hdigit d (by rw [hds]; exact List.mem_cons_self)
    refine ⟨hcanonical.2.2, fun h => ?_, fun h => ?_⟩
    · rw [hds] at h
      exact hd (List.cons.inj h).1
    · rw [hds] at h
      exact hd (List.cons.inj h).1

/-- A text of an integer is the encoder's, or it has a plus sign and is longer. -/
theorem intText_of_parse {i : Int64} (hvalid : intTextValid s = true) (hi : parseI64 s = some i) :
    (s.head? = some plus ∧ (intText i).length < s.length) ∨
      (s.head? ≠ some plus ∧ intText i = s) := by
  obtain ⟨hne, hdigits, hvalue⟩ := parseI64_some hi
  have hs : s ≠ [] := by
    rintro rfl
    exact hne rfl
  obtain ⟨hzero, hminus, -⟩ := (intTextValid_iff hs).mp hvalid
  replace hdigits := List.all_eq_true.mp hdigits
  obtain ⟨b, ds, rfl⟩ := List.exists_cons_of_ne_nil hs
  by_cases hb : b = minus
  · -- a minus sign, and a numeral that is not zero
    subst hb
    refine .inr ⟨fun h => absurd (Option.some.inj h) (by decide), ?_⟩
    replace hne : ds ≠ [] := hne
    replace hdigits : ∀ d ∈ ds, Decimal.isDigit d = true := hdigits
    replace hvalue : Decimal.value ds ≤ 9223372036854775808 ∧
      i = Int64.ofInt (-Decimal.value ds) := hvalue
    have hhead : ds.head? ≠ some zero := by
      intro h
      obtain ⟨tail, rfl⟩ := List.head?_eq_some_iff.mp h
      exact hminus rfl
    have hcanonical : Decimal.Canonical ds := ⟨hne, hdigits, fun h => absurd h hhead⟩
    have hpos := Decimal.value_pos hcanonical hhead
    have hint : i.toInt = -Decimal.value ds := by
      rw [hvalue.2]
      exact Int64.toInt_ofInt_of_le (by omega) (by omega)
    rw [intText, if_pos (by omega), show i.toInt.natAbs = Decimal.value ds by omega,
      Decimal.digits_value hcanonical]
  · by_cases hp : b = plus
    · subst hp
      refine .inl ⟨rfl, ?_⟩
      replace hne : ds ≠ [] := hne
      replace hdigits : ∀ d ∈ ds, Decimal.isDigit d = true := hdigits
      replace hvalue : Decimal.value ds < 9223372036854775808 ∧
        i = Int64.ofInt (Decimal.value ds) := hvalue
      have hint : i.toInt = Decimal.value ds := by
        rw [hvalue.2]
        exact Int64.toInt_ofInt_of_le (by omega) (by omega)
      have hle := Decimal.length_digits_value_le hne hdigits
      rw [intText, if_neg (by omega), show i.toInt.natAbs = Decimal.value ds by omega,
        List.length_cons]
      omega
    · refine .inr ⟨fun h => hp (Option.some.inj h), ?_⟩
      have hsplit : splitSign (b :: ds) = (false, b :: ds) := by
        rw [splitSign, if_neg hb, if_neg hp]
      rw [hsplit] at hne hdigits hvalue
      replace hvalue : Decimal.value (b :: ds) < 9223372036854775808 ∧
        i = Int64.ofInt (Decimal.value (b :: ds)) := hvalue
      have hint : i.toInt = Decimal.value (b :: ds) := by
        rw [hvalue.2]
        exact Int64.toInt_ofInt_of_le (by omega) (by omega)
      rw [intText, if_neg (by omega),
        show i.toInt.natAbs = Decimal.value (b :: ds) by omega,
        Decimal.digits_value ⟨hne, hdigits, hzero⟩]

/-! ## Every value is written and read back -/

/-- Entries in ascending order go into the map as they are. -/
theorem insertAll_ascending {es : List (Key × Tree)} (h : es.Pairwise fun e f => e.1 < f.1)
    {map : List (Key × Value)} (hmap : ∀ e ∈ map, ∀ f ∈ es, e.1 < f.1) :
    insertAll es map = map ++ es.map fun e => (e.1, e.2.value) := by
  induction es generalizing map with
  | nil => rw [List.map_nil, List.append_nil]; rfl
  | cons e es ih =>
    obtain ⟨k, t⟩ := e
    obtain ⟨hk, hes⟩ := List.pairwise_cons.mp h
    have hlast : SortedMap.insertEntry k t.value map = map ++ [(k, t.value)] :=
      SortedMap.insertEntry_last fun e he => hmap e he (k, t) List.mem_cons_self
    have hmap' : ∀ e ∈ map ++ [(k, t.value)], ∀ f ∈ es, e.1 < f.1 := by
      intro e he f hf
      rcases List.mem_append.mp he with he | he
      · exact hmap e he f (List.mem_cons_of_mem _ hf)
      · obtain rfl := List.mem_singleton.mp he
        exact hk f hf
    show insertAll es (SortedMap.insertEntry k t.value map) = _
    rw [hlast, ih hes hmap', List.map_cons, List.append_assoc]
    rfl

theorem tree_dict_value {es : List (Key × Tree)} (h : es.Pairwise fun e f => e.1 < f.1) :
    (Tree.dict es).value = .dict (es.map fun e => (e.1, e.2.value)) := by
  have hnil : ∀ e ∈ ([] : List (Key × Value)), ∀ f ∈ es, e.1 < f.1 := fun e he => by cases he
  rw [Tree.value, ← insertAll, insertAll_ascending h hnil, List.nil_append]

/-- The tree of a value as the encoder writes it. -/
def Tree.ofValue : Value → Tree
  | .int i => .int (intText i)
  | .bytes b => .bytes b
  | .list items => .list (ofItems items)
  | .dict entries => .dict (ofEntries entries)
where
  ofItems : List Value → List Tree
    | [] => []
    | v :: vs => ofValue v :: ofItems vs
  ofEntries : List (Key × Value) → List (Key × Tree)
    | [] => []
    | (k, v) :: es => (k, ofValue v) :: ofEntries es

namespace Tree

theorem ofItems_eq (vs : List Value) : ofValue.ofItems vs = vs.map ofValue := by
  induction vs with
  | nil => rfl
  | cons v vs ih => rw [ofValue.ofItems, ih, List.map_cons]

theorem ofEntries_eq (es : List (Key × Value)) :
    ofValue.ofEntries es = es.map fun e => (e.1, ofValue e.2) := by
  induction es with
  | nil => rfl
  | cons e es ih => rw [ofValue.ofEntries, ih, List.map_cons]

theorem ofValue_text (v : Value) : (ofValue v).text = encode v := by
  induction v using Value.induct with
  | int i => rfl
  | bytes b => rfl
  | list items ih =>
    rw [ofValue, ofItems_eq, tree_list_text, encode, encodeItems_eq, List.flatMap_map]
    exact congrArg (fun bs => listTag :: (bs ++ [endTag])) (List.flatMap_congr ih)
  | dict entries ih =>
    rw [ofValue, ofEntries_eq, tree_dict_text, encode, encodeEntries_eq, List.flatMap_map]
    refine congrArg (fun bs => dictTag :: (bs ++ [endTag])) (List.flatMap_congr fun e he => ?_)
    rw [entryText, ih e he]

theorem ofValue_depth (v : Value) {n : Nat} (h : v.depth ≤ n) : (ofValue v).depth ≤ n := by
  induction v using Value.induct generalizing n with
  | int i => exact h
  | bytes b => exact h
  | list items ih =>
    rw [ofValue, ofItems_eq]
    refine depthItems_le.mpr fun t ht => ?_
    obtain ⟨v, hv, rfl⟩ := List.mem_map.mp ht
    have := Value.depthItems_le.mp h v hv
    have := @ih v hv (n - 1) (by omega)
    omega
  | dict entries ih =>
    rw [ofValue, ofEntries_eq]
    refine depthEntries_le.mpr fun e he => ?_
    obtain ⟨e, hmem, rfl⟩ := List.mem_map.mp he
    have := Value.depthEntries_le.mp h e hmem
    have := @ih e hmem (n - 1) (by omega)
    show (ofValue e.2).depth + 1 ≤ n
    omega

/-- A proper value is what its tree stands for. -/
theorem ofValue_spec {v : Value} (h : v.Proper) : (ofValue v).Valid ∧ (ofValue v).value = v := by
  induction v using Value.induct with
  | int i =>
    have hparse := parseI64_intText i
    refine ⟨⟨intTextValid_intText i, by rw [hparse]; rfl⟩, ?_⟩
    rw [ofValue, value, hparse]
    rfl
  | bytes b => exact ⟨h, rfl⟩
  | list items ih =>
    have hitems := Value.allItems_iff.mp h.2
    rw [ofValue, ofItems_eq, tree_list_valid, tree_list_value, List.map_map]
    refine ⟨fun t ht => ?_, ?_⟩
    · obtain ⟨v, hv, rfl⟩ := List.mem_map.mp ht
      exact (ih v hv (hitems v hv)).1
    · refine congrArg Value.list ((List.map_congr_left fun v hv => ?_).trans (List.map_id items))
      exact (ih v hv (hitems v hv)).2
  | dict entries ih =>
    obtain ⟨⟨hsorted, hkeys⟩, hentries⟩ := h
    replace hentries := Value.allEntries_iff.mp hentries
    have hascending : (entries.map fun e => (e.1, ofValue e.2)).Pairwise
        fun e f => e.1 < f.1 := List.pairwise_map.mpr hsorted
    rw [ofValue, ofEntries_eq, tree_dict_valid, tree_dict_value hascending, List.map_map]
    refine ⟨⟨fun e he => ?_, fun e he => ?_⟩, ?_⟩
    · obtain ⟨e, hmem, rfl⟩ := List.mem_map.mp he
      exact hkeys e hmem
    · obtain ⟨e, hmem, rfl⟩ := List.mem_map.mp he
      exact (ih e hmem (hentries e hmem)).1
    · refine congrArg Value.dict
        ((List.map_congr_left fun e he => ?_).trans (List.map_id entries))
      exact Prod.ext rfl (ih e he (hentries e he)).2

end Tree

/-- What the encoder writes is a valid text of its value. -/
theorem encode_tree (hproper : v.Proper) (hdepth : v.depth ≤ maxDepth) :
    ∃ t : Tree, t.Valid ∧ t.depth ≤ maxDepth ∧ t.text = encode v ∧ t.value = v := by
  obtain ⟨hvalid, hvalue⟩ := Tree.ofValue_spec hproper
  exact ⟨.ofValue v, hvalid, Tree.ofValue_depth v hdepth, Tree.ofValue_text v, hvalue⟩

theorem decodePrefix_encode (hproper : v.Proper) (hdepth : v.depth ≤ maxDepth) (rest : List UInt8) :
    decodePrefix (encode v ++ rest) = .ok (v, (encode v).length) := by
  obtain ⟨t, hvalid, hdepth', htext, hvalue⟩ := encode_tree hproper hdepth
  have h := decodePrefix_text hvalid hdepth' rest
  rwa [htext, hvalue] at h

theorem decode_eq_ok (hproper : v.Proper) (hdepth : v.depth ≤ maxDepth) :
    decode (encode v) = .ok v := by
  obtain ⟨t, hvalid, hdepth', htext, hvalue⟩ := encode_tree hproper hdepth
  exact decode_ok_iff.mpr ⟨t, hvalid, hdepth', htext, hvalue⟩

/-- **The decoder reads back what the encoder writes**, alone and in front of anything. -/
theorem decode_encode {v : Value} (hproper : v.Proper) (hdepth : v.depth ≤ maxDepth) :
    decode (encode v) = .ok v ∧
      ∀ rest, decodePrefix (encode v ++ rest) = .ok (v, (encode v).length) :=
  ⟨decode_eq_ok hproper hdepth, decodePrefix_encode hproper hdepth⟩

/-- `d1:ai-5e1:bl2:xyee`. -/
def small : Value := .dict [([97], .int (-5)), ([98], .list [.bytes [120, 121]])]

theorem small_decode_encode :
    decode (encode small) = .ok small ∧
      ∀ rest, decodePrefix (encode small ++ rest) = .ok (small, (encode small).length) :=
  decode_encode ⟨⟨by decide, by decide⟩, trivial,
    ⟨trivial, show 2 < 18446744073709551616 by decide, trivial⟩, trivial⟩ (by decide)

/-! ## Every accepted text is the encoder's, up to plus signs -/

namespace Tree

/-- The keys of every dictionary ascend. -/
def Ascending (t : Tree) : Prop :=
  t.All fun
    | .dict entries => entries.Pairwise fun e f => e.1 < f.1
    | _ => True

/-- No integer is written with a plus sign. -/
def NoPlus (t : Tree) : Prop :=
  t.All fun
    | .int s => s.head? ≠ some plus
    | _ => True

/-- A way to read `s`. -/
def Reads (t : Tree) (s : List UInt8) : Prop := t.Valid ∧ t.text = s

theorem flatMap_length_le {α : Type} {f g : α → List UInt8} {xs : List α}
    (h : ∀ x ∈ xs, (f x).length ≤ (g x).length) :
    (xs.flatMap f).length ≤ (xs.flatMap g).length ∧
      ((xs.flatMap f).length = (xs.flatMap g).length → ∀ x ∈ xs, (f x).length = (g x).length) := by
  induction xs with
  | nil => exact ⟨Nat.le_refl _, fun _ => nofun⟩
  | cons x xs ih =>
    obtain ⟨hx, hxs⟩ := List.forall_mem_cons.mp h
    obtain ⟨hle, heq⟩ := ih hxs
    simp only [List.flatMap_cons, List.length_append, List.forall_mem_cons]
    refine ⟨by omega, fun hsum => ⟨by omega, heq (by omega)⟩⟩

/-- The encoder writes no more bytes than were read, and as many only if no plus sign was. -/
theorem encode_value_length {t : Tree} (hvalid : t.Valid) (hasc : t.Ascending) :
    (encode t.value).length ≤ t.text.length ∧
      ((encode t.value).length = t.text.length → t.NoPlus) := by
  induction t using Tree.induct with
  | int s =>
    obtain ⟨i, hi⟩ := Option.isSome_iff_exists.mp hvalid.2
    have hspell := intText_of_parse hvalid.1 hi
    simp only [value, hi, Option.getD_some, encode, text, List.length_cons, List.length_append,
      List.length_nil, NoPlus, All]
    rcases hspell with ⟨-, hlt⟩ | ⟨hhead, heq⟩
    · exact ⟨by omega, fun h => by omega⟩
    · exact ⟨by simp only [heq, Nat.le_refl], fun _ => hhead⟩
  | bytes b => exact ⟨Nat.le_refl _, fun _ => trivial⟩
  | list items ih =>
    have hitems := tree_list_valid.mp hvalid
    have hascItems := allItems_iff.mp hasc.2
    have hlen := fun t ht => ih t ht (hitems t ht) (hascItems t ht)
    obtain ⟨hle, heq⟩ := flatMap_length_le fun t ht => (hlen t ht).1
    rw [tree_list_value, tree_list_text, encode, encodeItems_eq, List.flatMap_map]
    simp only [List.length_cons, List.length_append, List.length_nil]
    refine ⟨by omega, fun hsum => ⟨trivial, allItems_iff.mpr fun t ht => ?_⟩⟩
    exact (hlen t ht).2 (heq (by omega) t ht)
  | dict entries ih =>
    have hentries := (tree_dict_valid.mp hvalid).2
    obtain ⟨hsorted, hascEntries⟩ := hasc
    replace hascEntries := allEntries_iff.mp hascEntries
    have hlen := fun e he => ih e he (hentries e he) (hascEntries e he)
    have hentry : ∀ e ∈ entries, (bytesText e.1 ++ encode e.2.value).length ≤
        (entryText e).length := by
      intro e he
      have := (hlen e he).1
      simp only [entryText, List.length_append]
      omega
    obtain ⟨hle, heq⟩ := flatMap_length_le hentry
    rw [tree_dict_value hsorted, tree_dict_text, encode, encodeEntries_eq, List.flatMap_map]
    simp only [List.length_cons, List.length_append, List.length_nil]
    refine ⟨by omega, fun hsum => ⟨trivial, allEntries_iff.mpr fun e he => ?_⟩⟩
    have hsame := heq (by omega) e he
    simp only [entryText, List.length_append] at hsame
    exact (hlen e he).2 (by omega)

theorem encode_value {t : Tree} (hvalid : t.Valid) (hasc : t.Ascending) (hplus : t.NoPlus) :
    encode t.value = t.text := by
  induction t using Tree.induct with
  | int s =>
    obtain ⟨i, hi⟩ := Option.isSome_iff_exists.mp hvalid.2
    rcases intText_of_parse hvalid.1 hi with ⟨hhead, -⟩ | ⟨-, heq⟩
    · exact absurd hhead hplus
    · rw [value, hi, Option.getD_some, encode, heq, text]
  | bytes b => rfl
  | list items ih =>
    have hitems := tree_list_valid.mp hvalid
    have hascItems := allItems_iff.mp hasc.2
    have hplusItems := allItems_iff.mp hplus.2
    rw [tree_list_value, tree_list_text, encode, encodeItems_eq, List.flatMap_map]
    refine congrArg (fun bs => listTag :: (bs ++ [endTag])) (List.flatMap_congr fun t ht => ?_)
    exact ih t ht (hitems t ht) (hascItems t ht) (hplusItems t ht)
  | dict entries ih =>
    have hentries := (tree_dict_valid.mp hvalid).2
    obtain ⟨hsorted, hascEntries⟩ := hasc
    replace hascEntries := allEntries_iff.mp hascEntries
    have hplusEntries := allEntries_iff.mp hplus.2
    rw [tree_dict_value hsorted, tree_dict_text, encode, encodeEntries_eq, List.flatMap_map]
    refine congrArg (fun bs => dictTag :: (bs ++ [endTag])) (List.flatMap_congr fun e he => ?_)
    rw [entryText, ← ih e he (hentries e he) (hascEntries e he) (hplusEntries e he)]

end Tree

/-- More levels change nothing but the limit. -/
theorem Tree.Reads.value_eq {t : Tree} (ht : t.Reads s) (h : decode s = .ok v) : t.value = v := by
  obtain ⟨t', hvalid', hdepth', htext', hvalue'⟩ := decode_ok_iff.mp h
  -- both trees are read by a parser with levels enough for both
  have hnew : (Parser.new s).rest = s := List.drop_zero
  have h₁ := (parseValue_parses (max t.depth t'.depth + 1)).complete (.new s) t [] ht.1
    (by omega) (by rw [hnew, ht.2, List.append_nil])
  have h₂ := (parseValue_parses (max t.depth t'.depth + 1)).complete (.new s) t' [] hvalid'
    (by omega) (by rw [hnew, htext', List.append_nil])
  exact (Prod.mk.inj (Except.ok.inj (h₁.symm.trans h₂))).1.trans hvalue'

/-- **An accepted text with ascending keys is the encoding of its value if and only if no integer
in it has a plus sign.** -/
theorem encode_decode {s : List UInt8} {v : Value} (h : decode s = .ok v) :
    (∃ t : Tree, t.Reads s) ∧
      ∀ t : Tree, t.Reads s → t.Ascending → (encode v = s ↔ t.NoPlus) := by
  obtain ⟨t, hvalid, -, htext, -⟩ := decode_ok_iff.mp h
  refine ⟨⟨t, hvalid, htext⟩, fun t ht hasc => ?_⟩
  rw [← ht.value_eq h, ← ht.2]
  constructor
  · intro heq
    exact (Tree.encode_value_length ht.1 hasc).2 (congrArg List.length heq)
  · exact Tree.encode_value ht.1 hasc

/-- `i5e` and `i+5e` are read as the same number. -/
theorem plus_accepted :
    decode [105, 43, 53, 101] = .ok (.int 5) ∧
      (Tree.int [43, 53]).Reads [105, 43, 53, 101] ∧ (Tree.int [43, 53]).Ascending ∧
      encode (.int 5) ≠ [105, 43, 53, 101] := by
  refine ⟨rfl, ⟨⟨by decide, by decide⟩, by decide⟩, trivial, by decide⟩

theorem int_encode_decode :
    (∃ t : Tree, t.Reads [105, 53, 101]) ∧
      ∀ t : Tree, t.Reads [105, 53, 101] → t.Ascending →
        (encode (.int 5) = [105, 53, 101] ↔ t.NoPlus) :=
  encode_decode (show decode [105, 53, 101] = .ok (.int 5) from rfl)

end XferRust.Bencode
