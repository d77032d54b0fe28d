import XferRust.Bencode.Grammar

/-! # The parser of a torrent's top level

`parse_root` is a second parser of the same format, for a dictionary at the top whose values it
returns with the ranges of their bytes.  Both parsers are measured by the same grammar, so they
accept the same dictionaries, and the range under a key is that of the last entry with the key.
-/
namespace XferRust.Bencode
open SortedMap (insertEntry insertMany lookup)

/-- The entries from a position on, each with the range of its value. -/
def occurrences : List (Key × Tree) → Nat → List (Key × Tree × Range)
  | [], _ => []
  | (k, t) :: es, pos =>
    let start := pos + (bytesText k).length
    (k, t, start, start + t.text.length) :: occurrences es (start + t.text.length)

/-- The entries as the map gets them. -/
def valuesOf (os : List (Key × Tree × Range)) : List (Key × Value) :=
  os.map fun o => (o.1, o.2.1.value)

/-- The ranges as their map gets them. -/
def rangesOf (os : List (Key × Tree × Range)) : List (Key × Range) :=
  os.map fun o => (o.1, o.2.2)

/-- The bytes of a range. -/
def slice (s : List UInt8) (a b : Nat) : List UInt8 := (s.drop a).take (b - a)

theorem insertMany_valuesOf (es : List (Key × Tree)) (pos : Nat) (map : List (Key × Value)) :
    insertMany (valuesOf (occurrences es pos)) map = insertAll es map := by
  induction es generalizing pos map with
  | nil => rfl
  | cons e es ih => exact ih _ _

/-! ## The loop -/

variable {levels : Nat} {p : Parser} {m : List (Key × Value)} {r : List (Key × Range)}
  {s : List UInt8}

theorem parseValueFull_ok {q : Parser} {v : Value} {range : Range} :
    parseValueFull levels p = .ok ((v, range), q) ↔
      parseValue levels p = .ok (v, q) ∧ range = (p.pos, q.pos) := by
  constructor
  · intro h
    obtain ⟨⟨w, q'⟩, hw, h⟩ := except_bind_ok.mp h
    obtain ⟨h₁, rfl⟩ := Prod.mk.inj (Except.ok.inj h)
    obtain ⟨rfl, rfl⟩ := Prod.mk.inj h₁
    exact ⟨hw, rfl⟩
  · rintro ⟨h, rfl⟩
    exact except_bind_ok.mpr ⟨_, h, rfl⟩

theorem rootLoop_complete {es : List (Key × Tree)} {tail : List UInt8}
    (hes : ∀ e ∈ es, e.1.length < 18446744073709551616 ∧ e.2.Valid ∧ e.2.depth < levels)
    {fuel : Nat} (hfuel : es.length < fuel) {map : List (Key × Value)} {ranges : List (Key × Range)}
    (hp : p.rest = es.flatMap Tree.entryText ++ endTag :: tail) :
    rootLoop (parseValueFull levels) fuel map ranges p =
      .ok ((insertAll es map, insertMany (rangesOf (occurrences es p.pos)) ranges),
        p.advance ((es.flatMap Tree.entryText).length + 1)) := by
  induction es generalizing fuel map ranges p with
  | nil =>
    obtain ⟨fuel, rfl⟩ := Nat.exists_eq_add_of_lt hfuel
    have hpeek : p.peek = some endTag := by rw [Parser.peek_eq, hp]; rfl
    simp only [rootLoop, hpeek, if_true]
    rfl
  | cons e es ih =>
    obtain ⟨k, t⟩ := e
    obtain ⟨fuel, rfl⟩ : ∃ n, fuel = n + 1 := ⟨fuel - 1, by omega⟩
    rw [List.flatMap_cons, Tree.entryText, List.append_assoc, List.append_assoc] at hp
    obtain ⟨⟨hkey, hvalid, hdepth⟩, hrest⟩ := List.forall_mem_cons.mp hes
    obtain ⟨b, bs, hbs, hb⟩ := bytesText_head k
    have hpeek : p.peek = some b := by rw [Parser.peek_eq, hp, hbs]; rfl
    have hp₂ := Parser.rest_of_eq hp
    have hvalue := (parseValue_parses levels).complete _ t _ hvalid hdepth hp₂
    simp only [rootLoop, hpeek, if_neg (ne_endTag_of_isDigit hb)]
    refine except_bind_ok.mpr ⟨_, parseRawBytes_complete hkey hp, ?_⟩
    refine except_bind_ok.mpr ⟨_, parseValueFull_ok.mpr ⟨hvalue, rfl⟩, ?_⟩
    have hlen : es.length < fuel := Nat.lt_of_succ_lt_succ hfuel
    dsimp only
    rw [ih hrest hlen (Parser.rest_of_eq hp₂)]
    refine congrArg (fun q => Except.ok ((insertAll ((k, t) :: es) map,
      insertMany (rangesOf (occurrences ((k, t) :: es) p.pos)) ranges), q)) ?_
    rw [Parser.advance_advance, Parser.advance_advance, List.flatMap_cons, List.length_append,
      Tree.entryText, List.length_append, Nat.add_assoc, Nat.add_assoc]

theorem rootLoop_sound {fuel : Nat} {map : List (Key × Value)} {ranges : List (Key × Range)}
    {q : Parser} (h : rootLoop (parseValueFull levels) fuel map ranges p = .ok ((m, r), q)) :
    ∃ es : List (Key × Tree),
      (∀ e ∈ es, e.1.length < 18446744073709551616 ∧ e.2.Valid ∧ e.2.depth < levels) ∧
      m = insertAll es map ∧ r = insertMany (rangesOf (occurrences es p.pos)) ranges ∧
      p.Consumes q (es.flatMap Tree.entryText ++ [endTag]) := by
  induction fuel generalizing map ranges p with
  | zero => cases h
  | succ fuel ih =>
    rw [rootLoop] at h
    split at h
    · cases h
    rename_i b hpeek
    split at h
    · rename_i hb
      subst hb
      obtain ⟨hmr, rfl⟩ := Prod.mk.inj (Except.ok.inj h)
      obtain ⟨rfl, rfl⟩ := Prod.mk.inj hmr
      exact ⟨[], nofun, rfl, rfl, Parser.consumes_one hpeek⟩
    · obtain ⟨⟨k, p₁⟩, hkey, h⟩ := except_bind_ok.mp h
      obtain ⟨⟨⟨w, range⟩, p₂⟩, hitem, h⟩ := except_bind_ok.mp h
      obtain ⟨hvalue, rfl⟩ := parseValueFull_ok.mp hitem
      obtain ⟨hlen, hcons₁⟩ := parseRawBytes_sound hkey
      obtain ⟨t, hvalid, hdepth, rfl, hcons₂⟩ := (parseValue_parses levels).sound _ _ _ hvalue
      obtain ⟨es, hes, rfl, rfl, hrest⟩ := ih h
      have hpos₁ : p₁.pos = p.pos + (bytesText k).length := congrArg Parser.pos hcons₁.eq
      have hpos₂ : p₂.pos = p.pos + (bytesText k).length + t.text.length := by
        rw [← hpos₁]
        exact congrArg Parser.pos hcons₂.eq
      refine ⟨(k, t) :: es, List.forall_mem_cons.mpr ⟨⟨hlen, hvalid, hdepth⟩, hes⟩, rfl, ?_, ?_⟩
      · rw [hpos₁, hpos₂]
        rfl
      · rw [List.flatMap_cons, List.append_assoc, Tree.entryText, List.append_assoc]
        exact hcons₁.trans (hcons₂.trans hrest)

/-- What `parse_root` accepts, and what it returns. -/
theorem parseRoot_ok_iff :
    parseRoot s = .ok (m, r) ↔
      ∃ es : List (Key × Tree), (Tree.dict es).Valid ∧ (Tree.dict es).depth ≤ maxDepth ∧
        (Tree.dict es).text = s ∧ m = insertAll es [] ∧
        r = insertMany (rangesOf (occurrences es 1)) [] := by
  have hnew : (Parser.new s).rest = s := List.drop_zero
  constructor
  · intro h
    simp only [parseRoot] at h
    split at h
    · cases h
    rename_i hpeek
    have h₁ := Parser.consumes_one (Classical.not_not.mp hpeek)
    obtain ⟨⟨⟨m', r'⟩, p⟩, hloop, h⟩ := except_bind_ok.mp h
    obtain ⟨es, hes, rfl, rfl, hcons⟩ := rootLoop_sound hloop
    dsimp only at h
    split at h
    · cases h
    rename_i hend
    obtain ⟨rfl, rfl⟩ := Prod.mk.inj (Except.ok.inj h)
    have hall := h₁.trans hcons
    -- nothing is left behind the dictionary
    have hrest : p.rest = [] := by
      have hlen := hall.length
      have hpos := congrArg Parser.pos hall.eq
      rw [hnew] at hlen
      rw [Classical.not_not.mp hend] at hpos
      replace hpos : s.length = 0 + _ := hpos
      exact List.length_eq_zero_iff.mp (by omega)
    have htext := hall.rest
    rw [hnew, hrest, List.append_nil] at htext
    refine ⟨es, tree_dict_valid.mpr ⟨fun e he => (hes e he).1, fun e he => (hes e he).2.1⟩,
      Nat.le_of_lt_succ (tree_dict_depth.mpr fun e he => (hes e he).2.2), ?_, rfl, rfl⟩
    rw [tree_dict_text, htext]
    rfl
  · rintro ⟨es, hvalid, hdepth, htext, rfl, rfl⟩
    obtain ⟨hkeys, hvalues⟩ := tree_dict_valid.mp hvalid
    have hp : (Parser.new s).rest = dictTag :: (es.flatMap Tree.entryText ++ [endTag]) := by
      rw [hnew, ← htext, tree_dict_text]
    have hpeek : (Parser.new s).peek = some dictTag := by rw [Parser.peek_eq, hp]; rfl
    have hrest : ((Parser.new s).advance 1).rest = es.flatMap Tree.entryText ++ endTag :: [] :=
      @Parser.rest_of_eq (.new s) [dictTag] _ hp
    have hmem : ∀ e ∈ es, e.1.length < 18446744073709551616 ∧ e.2.Valid ∧ e.2.depth < maxDepth :=
      fun e he => ⟨hkeys e he, hvalues e he,
        tree_dict_depth.mp (Nat.lt_succ_of_le hdepth) e he⟩
    have hfuel : es.length < ((Parser.new s).advance 1).rest.length := by
      have := length_le_flatMap Tree.entryText_ne_nil es
      rw [hrest, List.length_append, List.length_cons]
      omega
    simp only [parseRoot, hpeek, ne_eq, not_true_eq_false, if_false]
    refine except_bind_ok.mpr ⟨_, rootLoop_complete hmem hfuel hrest, ?_⟩
    dsimp only
    rw [if_neg]
    · rfl
    · rw [Parser.advance_advance, ← htext, tree_dict_text, List.length_cons, List.length_append]
      simp only [Parser.advance, Parser.new, List.length_singleton]
      omega

/-! ## The ranges -/

theorem occurrences_spec {es : List (Key × Tree)} {pos : Nat} {o : Key × Tree × Range}
    {before after : List (Key × Tree × Range)} (h : occurrences es pos = before ++ o :: after) :
    ∃ pre post, es = pre ++ (o.1, o.2.1) :: post ∧ after.map Prod.fst = post.map Prod.fst ∧
      o.2.2.1 = pos + (pre.flatMap Tree.entryText).length + (bytesText o.1).length ∧
      o.2.2.2 = o.2.2.1 + o.2.1.text.length := by
  induction es generalizing pos before with
  | nil => cases before <;> cases h
  | cons e es ih =>
    obtain ⟨k, t⟩ := e
    cases before with
    | nil =>
      obtain ⟨rfl, rfl⟩ := List.cons.inj h
      refine ⟨[], es, rfl, ?_, rfl, rfl⟩
      generalize pos + (bytesText k).length + t.text.length = next
      clear h ih
      induction es generalizing next with
      | nil => rfl
      | cons e es ih => exact congrArg (e.1 :: ·) (ih _)
    | cons b before =>
      have htail := (List.cons.inj h).2
      obtain ⟨pre, post, rfl, hkeys, hstart, hend⟩ := ih htail
      refine ⟨(k, t) :: pre, post, rfl, hkeys, ?_, hend⟩
      rw [hstart, List.flatMap_cons, Tree.entryText, List.length_append, List.length_append]
      dsimp only
      omega

/-- The bytes of the range of an entry are those of its value. -/
theorem slice_entry {pre post : List (Key × Tree)} {k : Key} {t : Tree} :
    slice (Tree.dict (pre ++ (k, t) :: post)).text
        (1 + (pre.flatMap Tree.entryText).length + (bytesText k).length)
        (1 + (pre.flatMap Tree.entryText).length + (bytesText k).length + t.text.length) = t.text := by
  have hsplit : (Tree.dict (pre ++ (k, t) :: post)).text =
      ([dictTag] ++ pre.flatMap Tree.entryText ++ bytesText k) ++
        (t.text ++ (post.flatMap Tree.entryText ++ [endTag])) := by
    rw [tree_dict_text, List.flatMap_append, List.flatMap_cons, Tree.entryText]
    simp only [List.append_assoc, List.cons_append, List.nil_append]
  have hlen : 1 + (pre.flatMap Tree.entryText).length + (bytesText k).length =
      ([dictTag] ++ pre.flatMap Tree.entryText ++ bytesText k).length := by
    simp only [List.length_append, List.length_singleton]
  rw [slice, hsplit, hlen, List.drop_left, Nat.add_sub_cancel_left, List.take_left]

/-- What a map has under a key comes from the last entry with the key. -/
theorem lookup_occurrences {β : Type} (f : Tree × Range → β) {l : List (Key × Tree × Range)}
    {k : Key} {b : β} :
    lookup k (insertMany (l.map fun o => (o.1, f o.2)) []) = some b ↔
      ∃ t range, f (t, range) = b ∧ ∃ before after,
        l = before ++ (k, t, range) :: after ∧ ∀ o ∈ after, o.1 ≠ k := by
  rw [SortedMap.lookup_insertMany]
  constructor
  · rintro (⟨pre, post, heq, hpost⟩ | ⟨-, h⟩)
    · obtain ⟨before, rest, hocc, -, hrest⟩ := List.map_eq_append_iff.mp heq
      obtain ⟨⟨k', t, range⟩, after, rfl, hhead, htail⟩ := List.map_eq_cons_iff.mp hrest
      obtain ⟨rfl, rfl⟩ := Prod.mk.inj hhead
      refine ⟨t, range, rfl, before, after, hocc, fun o ho => ?_⟩
      exact hpost (o.1, f o.2) (htail ▸ List.mem_map_of_mem ho)
    · cases h
  · rintro ⟨t, range, rfl, before, after, rfl, hafter⟩
    refine .inl ⟨before.map fun o => (o.1, f o.2), after.map fun o => (o.1, f o.2), ?_,
      fun e he => ?_⟩
    · rw [List.map_append, List.map_cons]
    · obtain ⟨o, ho, rfl⟩ := List.mem_map.mp he
      exact hafter o ho

/-! ## Agreement -/

/-- **Both parsers accept the same dictionaries** and return the same map. -/
theorem parseRoot_iff_decode : (∃ r, parseRoot s = .ok (m, r)) ↔ decode s = .ok (.dict m) := by
  rw [decode_ok_iff]
  constructor
  · rintro ⟨r, h⟩
    obtain ⟨es, hvalid, hdepth, htext, rfl, -⟩ := parseRoot_ok_iff.mp h
    exact ⟨.dict es, hvalid, hdepth, htext, rfl⟩
  · rintro ⟨t, hvalid, hdepth, htext, hvalue⟩
    cases t with
    | int s => cases hvalue
    | bytes b => cases hvalue
    | list ts =>
      rw [tree_list_value] at hvalue
      cases hvalue
    | dict es => exact ⟨_, parseRoot_ok_iff.mpr
        ⟨es, hvalid, hdepth, htext, (Value.dict.inj hvalue).symm, rfl⟩⟩

/-- What `parse_root` records under a key: the range lies in the input, begins and ends where the
value of the last entry with the key does, and `decode` reads the value of the map from it. -/
structure RangeAt (s : List UInt8) (es : List (Key × Tree)) (m : List (Key × Value)) (k : Key)
    (range : Range) : Prop where
  le : range.1 ≤ range.2
  within : range.2 ≤ s.length
  last : ∃ pre t post, es = pre ++ (k, t) :: post ∧ (∀ e ∈ post, e.1 ≠ k) ∧
    range.1 = 1 + (pre.flatMap Tree.entryText).length + (bytesText k).length ∧
    slice s range.1 range.2 = t.text
  decodes : ∃ v, lookup k m = some v ∧ decode (slice s range.1 range.2) = .ok v

theorem parseRoot_ranges (h : parseRoot s = .ok (m, r)) :
    ∃ es, (Tree.dict es).Valid ∧ (Tree.dict es).text = s ∧
      ∀ k, (lookup k r).isSome = (lookup k m).isSome ∧
        ∀ range, lookup k r = some range → RangeAt s es m k range := by
  obtain ⟨es, hvalid, hdepth, htext, rfl, rfl⟩ := parseRoot_ok_iff.mp h
  refine ⟨es, hvalid, htext, fun k => ?_⟩
  have hroot {v : Value} := insertMany_valuesOf es 1 [] ▸
    lookup_occurrences (fun o => o.1.value) (l := occurrences es 1) (k := k) (b := v)
  refine ⟨?_, fun range hrange => ?_⟩
  · rw [Bool.eq_iff_iff, Option.isSome_iff_exists, Option.isSome_iff_exists]
    constructor
    · rintro ⟨range, hrange⟩
      obtain ⟨t, range, -, hlast⟩ := (lookup_occurrences Prod.snd).mp hrange
      exact ⟨t.value, hroot.mpr ⟨t, range, rfl, hlast⟩⟩
    · rintro ⟨v, hv⟩
      obtain ⟨t, range, -, hlast⟩ := hroot.mp hv
      exact ⟨range, (lookup_occurrences Prod.snd).mpr ⟨t, range, rfl, hlast⟩⟩
  · obtain ⟨t, range, rfl, before, after, hocc, hafter⟩ := (lookup_occurrences Prod.snd).mp hrange
    have hv := hroot.mpr ⟨t, range, rfl, before, after, hocc, hafter⟩
    obtain ⟨a, b⟩ := range
    obtain ⟨pre, post, rfl, hkeys, hstart, hend⟩ := occurrences_spec hocc
    dsimp only at hstart hend hkeys
    have hslice : slice s a b = t.text := by
      rw [← htext, hend, hstart]
      exact slice_entry
    have hlen : b ≤ s.length := by
      rw [← htext, tree_dict_text, List.flatMap_append, List.flatMap_cons, Tree.entryText]
      simp only [List.length_cons, List.length_append]
      omega
    have hmem : (k, t) ∈ pre ++ (k, t) :: post :=
      List.mem_append_right _ List.mem_cons_self
    have hpost : ∀ e ∈ post, e.1 ≠ k := by
      intro e he
      obtain ⟨o, ho, hfst⟩ := List.mem_map.mp (hkeys ▸ List.mem_map_of_mem he)
      exact hfst ▸ hafter o ho
    refine ⟨by dsimp only; omega, hlen, ⟨pre, t, post, rfl, hpost, hstart, hslice⟩,
      t.value, hv, ?_⟩
    rw [hslice]
    refine decode_ok_iff.mpr ⟨t, (tree_dict_valid.mp hvalid).2 _ hmem, ?_, rfl, rfl⟩
    have := Tree.depthEntries_le.mp hdepth _ hmem
    dsimp only at this
    omega

end XferRust.Bencode
