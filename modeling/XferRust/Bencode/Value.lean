import XferRust.Lib.Decimal
import XferRust.Lib.SortedMap

/-! # Bencode values

The value model and the encoder.  A dictionary is the list of its entries: that the keys ascend,
as those of a `BTreeMap` do, and that no string is longer than memory is what `Value.Proper` says
of a value.
-/
namespace XferRust.Bencode

/-- A key; keys are compared byte by byte. -/
abbrev Key := List UInt8

inductive Value
  | int (i : Int64)
  | bytes (b : List UInt8)
  | list (items : List Value)
  | dict (entries : List (Key × Value))

/-- `BencodeError`, as far as the parser makes one. -/
inductive BencodeError
  | unexpectedEof (offset : Nat)
  | invalidToken (offset : Nat) (byte : UInt8)
  | invalidInteger (offset : Nat)
  | invalidLength (offset : Nat)
  | lengthOverflow (offset len remaining : Nat)
  | depthLimit (limit : Nat)
  | trailingData (remaining : Nat)

def maxDepth : Nat := 64

/-! ## The tokens -/

/-- `b'i'`. -/
abbrev intTag : UInt8 := 105
/-- `b'l'`. -/
abbrev listTag : UInt8 := 108
/-- `b'd'`. -/
abbrev dictTag : UInt8 := 100
/-- `b'e'`. -/
abbrev endTag : UInt8 := 101
/-- `b':'`. -/
abbrev colon : UInt8 := 58
/-- `b'-'`. -/
abbrev minus : UInt8 := 45
/-- `b'+'`. -/
abbrev plus : UInt8 := 43
/-- `b'0'`. -/
abbrev zero : UInt8 := 48

namespace Value

/-- `P` holds of the value and of every value in it. -/
def All (P : Value → Prop) : Value → Prop
  | .int i => P (.int i)
  | .bytes b => P (.bytes b)
  | .list items => P (.list items) ∧ allItems P items
  | .dict entries => P (.dict entries) ∧ allEntries P entries
where
  allItems (P : Value → Prop) : List Value → Prop
    | [] => True
    | v :: vs => v.All P ∧ allItems P vs
  allEntries (P : Value → Prop) : List (Key × Value) → Prop
    | [] => True
    | (_, v) :: es => v.All P ∧ allEntries P es

/-- How deep the deepest value in it stands. -/
def depth : Value → Nat
  | .int _ => 0
  | .bytes _ => 0
  | .list items => depthItems items
  | .dict entries => depthEntries entries
where
  depthItems : List Value → Nat
    | [] => 0
    | v :: vs => max (v.depth + 1) (depthItems vs)
  depthEntries : List (Key × Value) → Nat
    | [] => 0
    | (_, v) :: es => max (v.depth + 1) (depthEntries es)

/-- What the types of the source guarantee: no string is longer than memory, and the keys of a
dictionary ascend. -/
def ProperNode : Value → Prop
  | .bytes b => b.length < 18446744073709551616
  | .dict entries =>
    (entries.Pairwise fun e f => e.1 < f.1) ∧ ∀ e ∈ entries, e.1.length < 18446744073709551616
  | _ => True

def Proper (v : Value) : Prop := v.All ProperNode

end Value

/-! ## The encoder -/

/-- `i64::to_string`. -/
def intText (i : Int64) : List UInt8 :=
  if i.toInt < 0 then minus :: Decimal.digits i.toInt.natAbs else Decimal.digits i.toInt.natAbs

/-- A string with its length before it. -/
def bytesText (b : List UInt8) : List UInt8 := Decimal.digits b.length ++ colon :: b

/-- `encode`. -/
def encode : Value → List UInt8
  | .int i => intTag :: (intText i ++ [endTag])
  | .bytes b => bytesText b
  | .list items => listTag :: (encodeItems items ++ [endTag])
  | .dict entries => dictTag :: (encodeEntries entries ++ [endTag])
where
  encodeItems : List Value → List UInt8
    | [] => []
    | v :: vs => encode v ++ encodeItems vs
  encodeEntries : List (Key × Value) → List UInt8
    | [] => []
    | (k, v) :: es => bytesText k ++ encode v ++ encodeEntries es

/-! ## Nested lists

The recursion over a value is one over nested lists; these lemmas turn it into statements about
their members.
-/

namespace Value

variable {P : Value → Prop} {n : Nat}

theorem allItems_iff {vs : List Value} : All.allItems P vs ↔ ∀ v ∈ vs, v.All P := by
  induction vs with
  | nil => simp [All.allItems]
  | cons v vs ih => simp [All.allItems, ih]

theorem allEntries_iff {es : List (Key × Value)} : All.allEntries P es ↔ ∀ e ∈ es, e.2.All P := by
  induction es with
  | nil => simp [All.allEntries]
  | cons e es ih => simp [All.allEntries, ih]

theorem depthItems_le {vs : List Value} : depth.depthItems vs ≤ n ↔ ∀ v ∈ vs, v.depth + 1 ≤ n := by
  induction vs with
  | nil => simp [depth.depthItems]
  | cons v vs ih => simp only [depth.depthItems, List.forall_mem_cons, ← ih]; omega

theorem depthEntries_le {es : List (Key × Value)} :
    depth.depthEntries es ≤ n ↔ ∀ e ∈ es, e.2.depth + 1 ≤ n := by
  induction es with
  | nil => simp [depth.depthEntries]
  | cons e es ih => simp only [depth.depthEntries, List.forall_mem_cons, ← ih]; omega

/-- Induction with the claim for all members of a list or a dictionary. -/
theorem induct (int : ∀ i, P (.int i)) (bytes : ∀ b, P (.bytes b))
    (list : ∀ items, (∀ v ∈ items, P v) → P (.list items))
    (dict : ∀ entries, (∀ e ∈ entries, P e.2) → P (.dict entries)) (v : Value) : P v := by
  refine @Value.rec P (fun vs => ∀ v ∈ vs, P v) (fun es => ∀ e ∈ es, P e.2) (fun e => P e.2)
    int bytes list dict nofun (fun v vs hv hvs => ?_) nofun (fun e es he hes => ?_)
    (fun k v hv => hv) v
  · exact List.forall_mem_cons.mpr ⟨hv, hvs⟩
  · exact List.forall_mem_cons.mpr ⟨he, hes⟩

/-! A dictionary that is built by insertions. -/

theorem insertMany_proper {new : List (Key × Value)}
    (h : ∀ e ∈ new, e.1.length < 18446744073709551616 ∧ e.2.Proper) :
    (dict (SortedMap.insertMany new [])).Proper := by
  have hall := SortedMap.forall_mem_insertMany h (List.forall_mem_nil _)
  exact ⟨⟨SortedMap.insertMany_sorted List.Pairwise.nil, fun e he => (hall e he).1⟩,
    allEntries_iff.mpr fun e he => (hall e he).2⟩

theorem insertMany_depth {new : List (Key × Value)} (h : ∀ e ∈ new, e.2.depth + 1 ≤ n) :
    (dict (SortedMap.insertMany new [])).depth ≤ n :=
  depthEntries_le.mpr (SortedMap.forall_mem_insertMany h (List.forall_mem_nil _))

end Value

theorem encodeItems_eq (vs : List Value) : encode.encodeItems vs = vs.flatMap encode := by
  induction vs with
  | nil => rfl
  | cons v vs ih => rw [encode.encodeItems, ih, List.flatMap_cons]

theorem encodeEntries_eq (es : List (Key × Value)) :
    encode.encodeEntries es = es.flatMap fun e => bytesText e.1 ++ encode e.2 := by
  induction es with
  | nil => rfl
  | cons e es ih => rw [encode.encodeEntries, ih, List.flatMap_cons]

end XferRust.Bencode
