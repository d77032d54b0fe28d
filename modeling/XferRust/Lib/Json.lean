/-! # JSON values

Values as a parser hands them over: the fields of an object in some order, each name once.
Beside the accessors there is the notion of a text that occurs in a value (`Json.Leaf`), and that
what an accessor finds in a value is smaller than the value.
-/

inductive Json where
  | null
  | bool (b : Bool)
  | int (n : Int)
  /-- A number with a fraction or an exponent, as it is written. -/
  | float (text : String)
  | str (s : String)
  | arr (elems : List Json)
  | obj (fields : List (String × Json))

namespace Json

/-- The field of that name. -/
def get? : Json → String → Option Json
  | .obj fields, key => (fields.find? fun f => f.1 = key).map Prod.snd
  | _, _ => none

def asStr : Json → Option String
  | .str s => some s
  | _ => none

def asArray : Json → Option (List Json)
  | .arr elems => some elems
  | _ => none

def asBool : Json → Option Bool
  | .bool b => some b
  | _ => none

/-- The number, if it is an integer of 64 bits with a sign. -/
def asI64 : Json → Option Int
  | .int n => if -9223372036854775808 ≤ n ∧ n < 9223372036854775808 then some n else none
  | _ => none

/-- The number, if it is an integer of 64 bits without a sign. -/
def asU64 : Json → Option Nat
  | .int n => if 0 ≤ n ∧ n < 18446744073709551616 then some n.toNat else none
  | _ => none

/-- The texts among the elements of an array. -/
def texts (elems : List Json) : List String := elems.filterMap asStr

/-- The text occurs in the value, as a string of its own. -/
inductive Leaf (t : String) : Json → Prop where
  | str : Leaf t (.str t)
  | arr {v : Json} {elems : List Json} : v ∈ elems → Leaf t v → Leaf t (.arr elems)
  | obj {f : String × Json} {fields : List (String × Json)} : f ∈ fields → Leaf t f.2 →
      Leaf t (.obj fields)

variable {v w : Json} {key : String}

theorem asStr_eq_some {s : String} : v.asStr = some s ↔ v = .str s := by
  cases v <;> simp [asStr]

theorem asArray_eq_some {elems : List Json} : v.asArray = some elems ↔ v = .arr elems := by
  cases v <;> simp [asArray]

theorem get?_eq_some (h : v.get? key = some w) : ∃ fields, v = .obj fields ∧ (key, w) ∈ fields := by
  cases v with
  | obj fields =>
    obtain ⟨f, hf, rfl⟩ := Option.map_eq_some_iff.mp h
    have hkey : f.1 = key := by
      have hsat := List.find?_some hf
      exact of_decide_eq_true hsat
    exact ⟨fields, rfl, hkey ▸ List.mem_of_find?_eq_some hf⟩
  | null | bool b | int n | float text | str s | arr elems => cases h

theorem Leaf.of_get {t : String} (h : v.get? key = some w) (hw : Leaf t w) : Leaf t v := by
  obtain ⟨fields, rfl, hmem⟩ := get?_eq_some h
  exact .obj hmem hw

theorem Leaf.of_asStr {s : String} (h : v.asStr = some s) : Leaf s v := by
  rw [asStr_eq_some.mp h]
  exact .str

theorem sizeOf_lt_of_get (h : v.get? key = some w) : sizeOf w < sizeOf v := by
  obtain ⟨fields, rfl, hmem⟩ := get?_eq_some h
  have hfield := List.sizeOf_lt_of_mem hmem
  simp only [Prod.mk.sizeOf_spec, Json.obj.sizeOf_spec] at hfield ⊢
  omega

theorem sizeOf_lt_of_asArray {elems : List Json} (h : v.asArray = some elems) :
    sizeOf elems < sizeOf v := by
  rw [asArray_eq_some.mp h, Json.arr.sizeOf_spec]
  omega

end Json
