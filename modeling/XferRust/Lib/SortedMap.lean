import Mathlib.Data.List.Nodup
import Mathlib.Data.List.Perm.Subperm
import XferRust.Lib.Tiling

/-! # Ordered maps

A finite map over linearly ordered keys, kept as the list of its entries in strictly
ascending key order; the order is a field, so that a map with two entries for one key
cannot be built.  Only what an in-order consumer of a map needs is here: insertion,
removal, lookup and the entry of the least key.
-/

/-- A finite map as its entries in ascending key order. -/
structure SortedMap (κ α : Type) [LT κ] where
  entries : List (κ × α)
  sorted : entries.Pairwise fun e f => e.1 < f.1

namespace SortedMap

section Basic
variable {κ α : Type} [LT κ]

/-- The map without entries. -/
def empty : SortedMap κ α := ⟨[], List.Pairwise.nil⟩

/-- Whether there are no entries. -/
def isEmpty (m : SortedMap κ α) : Bool := m.entries.isEmpty

theorem isEmpty_iff {m : SortedMap κ α} : m.isEmpty = true ↔ m.entries = [] :=
  List.isEmpty_iff

/-- The entry of the least key. -/
def first? (m : SortedMap κ α) : Option (κ × α) := m.entries.head?

/-- The keys, ascending. -/
def keys (m : SortedMap κ α) : List κ := m.entries.map Prod.fst

theorem mem_keys {m : SortedMap κ α} {k : κ} : k ∈ m.keys ↔ ∃ v, (k, v) ∈ m.entries := by
  simp [keys]

/-- The map without its `n` entries of least keys. -/
def dropFirst (m : SortedMap κ α) (n : Nat) : SortedMap κ α :=
  ⟨m.entries.drop n, m.sorted.drop⟩

variable [DecidableEq κ]

/-- The value under a key. -/
def find? (m : SortedMap κ α) (k : κ) : Option α :=
  (m.entries.find? fun e => e.1 = k).map Prod.snd

/-- The map without the entry of a key. -/
def erase (m : SortedMap κ α) (k : κ) : SortedMap κ α :=
  ⟨m.entries.filter fun e => e.1 ≠ k, m.sorted.filter _⟩

theorem mem_erase {m : SortedMap κ α} {k : κ} {e : κ × α} :
    e ∈ (m.erase k).entries ↔ e ∈ m.entries ∧ e.1 ≠ k := by
  simp [erase]

end Basic

section Ordered
variable {κ α : Type} [LT κ] [DecidableEq κ] [DecidableLT κ]

/-- Insertion into an ascending list of entries, replacing the entry of the same key. -/
def insertEntry (k : κ) (v : α) : List (κ × α) → List (κ × α)
  | [] => [(k, v)]
  | (k', v') :: es =>
    if k < k' then (k, v) :: (k', v') :: es
    else if k = k' then (k, v) :: es
    else (k', v') :: insertEntry k v es

variable {es : List (κ × α)} {k : κ} {v : α}
variable {e : κ × α} {new : List (κ × α)}

theorem mem_of_mem_insertEntry (h : e ∈ insertEntry k v es) : e = (k, v) ∨ e ∈ es := by
  induction es with
  | nil => exact .inl (List.mem_singleton.mp h)
  | cons f es ih =>
    obtain ⟨k', v'⟩ := f
    rw [insertEntry] at h
    split at h
    · exact List.mem_cons.mp h
    · split at h
      · exact (List.mem_cons.mp h).imp_right (List.mem_cons_of_mem _)
      · rcases List.mem_cons.mp h with h | h
        · exact .inr (h ▸ List.mem_cons_self)
        · exact (ih h).imp_right (List.mem_cons_of_mem _)

/-- The value of the first entry under a key. -/
def lookup (k : κ) (es : List (κ × α)) : Option α := (es.find? fun e => e.1 = k).map Prod.snd

omit [LT κ] [DecidableLT κ] in
theorem lookup_cons (k : κ) (e : κ × α) (es : List (κ × α)) :
    lookup k (e :: es) = if e.1 = k then some e.2 else lookup k es := by
  rw [lookup, List.find?_cons]
  split
  · rename_i h
    rw [if_pos (of_decide_eq_true h)]
    rfl
  · rename_i h
    rw [if_neg (of_decide_eq_false h), lookup]

theorem lookup_insertEntry (j k : κ) (v : α) (es : List (κ × α)) :
    lookup j (insertEntry k v es) = if k = j then some v else lookup j es := by
  induction es with
  | nil => rw [insertEntry, lookup_cons]
  | cons f es ih =>
    obtain ⟨k', v'⟩ := f
    rw [insertEntry]
    split
    · rw [lookup_cons]
    · split
      · rename_i heq
        rw [lookup_cons, lookup_cons]
        dsimp only
        by_cases hj : k = j
        · rw [if_pos hj, if_pos hj]
        · rw [if_neg hj, if_neg hj, if_neg (heq ▸ hj)]
      · rename_i hne
        rw [lookup_cons, lookup_cons, ih]
        dsimp only
        by_cases hj : k' = j
        · rw [if_pos hj, if_pos hj, if_neg (fun h => hne (h.trans hj.symm))]
        · rw [if_neg hj, if_neg hj]

/-- Entries inserted one after the other. -/
def insertMany : List (κ × α) → List (κ × α) → List (κ × α)
  | [], es => es
  | e :: new, es => insertMany new (insertEntry e.1 e.2 es)

/-- Of several insertions under one key the last one counts. -/
theorem lookup_insertMany {j : κ} :
    lookup j (insertMany new es) = some v ↔
      (∃ pre post, new = pre ++ (j, v) :: post ∧ ∀ e ∈ post, e.1 ≠ j) ∨
        ((∀ e ∈ new, e.1 ≠ j) ∧ lookup j es = some v) := by
  induction new generalizing es with
  | nil => simp [insertMany]
  | cons e new ih =>
    rw [insertMany, ih, lookup_insertEntry]
    constructor
    · rintro (⟨pre, post, rfl, hpost⟩ | ⟨hnew, hv⟩)
      · exact .inl ⟨e :: pre, post, rfl, hpost⟩
      · by_cases hj : e.1 = j
        · rw [if_pos hj] at hv
          exact .inl ⟨[], new, by rw [← hj, ← Option.some.inj hv]; rfl, hnew⟩
        · rw [if_neg hj] at hv
          exact .inr ⟨List.forall_mem_cons.mpr ⟨hj, hnew⟩, hv⟩
    · rintro (⟨pre, post, heq, hpost⟩ | ⟨hnew, hv⟩)
      · cases pre with
        | nil =>
          obtain ⟨rfl, rfl⟩ := List.cons.inj heq
          exact .inr ⟨hpost, if_pos rfl⟩
        | cons f pre =>
          obtain ⟨rfl, rfl⟩ := List.cons.inj heq
          exact .inl ⟨pre, post, rfl, hpost⟩
      · obtain ⟨hj, hnew⟩ := List.forall_mem_cons.mp hnew
        exact .inr ⟨hnew, by rw [if_neg hj]; exact hv⟩

omit [LT κ] [DecidableLT κ] in
theorem mem_of_lookup (h : lookup k es = some v) : (k, v) ∈ es := by
  obtain ⟨e, he, rfl⟩ := Option.map_eq_some_iff.mp h
  have hkey : e.1 = k := by
    have hfound := List.find?_some he
    exact of_decide_eq_true hfound
  have hmem := List.mem_of_find?_eq_some he
  rw [← hkey]
  exact hmem

omit [LT κ] [DecidableLT κ] in
theorem exists_lookup (h : e ∈ es) : ∃ v, lookup e.1 es = some v := by
  induction es with
  | nil => exact (List.not_mem_nil h).elim
  | cons f es ih =>
    rw [lookup_cons]
    by_cases hk : f.1 = e.1
    · exact ⟨f.2, if_pos hk⟩
    · rw [if_neg hk]
      rcases List.mem_cons.mp h with rfl | h
      · exact absurd rfl hk
      · exact ih h

omit [LT κ] [DecidableLT κ] in
theorem lookup_isSome_iff : (lookup k es).isSome = true ↔ k ∈ es.map Prod.fst := by
  constructor
  · intro h
    obtain ⟨v, hv⟩ := Option.isSome_iff_exists.mp h
    exact List.mem_map.mpr ⟨(k, v), mem_of_lookup hv, rfl⟩
  · intro h
    obtain ⟨e, he, rfl⟩ := List.mem_map.mp h
    obtain ⟨v, hv⟩ := exists_lookup he
    exact Option.isSome_iff_exists.mpr ⟨v, hv⟩

omit [LT κ] [DecidableLT κ] in
/-- Where no key is there twice, what is found is what is there. -/
theorem lookup_eq_some (h : (es.map Prod.fst).Nodup) : lookup k es = some v ↔ (k, v) ∈ es := by
  refine ⟨mem_of_lookup, fun hmem => ?_⟩
  obtain ⟨w, hw⟩ := exists_lookup hmem
  have heq := List.inj_on_of_nodup_map h (mem_of_lookup hw) hmem rfl
  rw [show v = w from (Prod.mk.inj heq).2.symm]
  exact hw

omit [LT κ] [DecidableLT κ] in
theorem lookup_append (j : κ) (es fs : List (κ × α)) :
    lookup j (es ++ fs) = (lookup j es).or (lookup j fs) := by
  induction es with
  | nil => rfl
  | cons e es ih =>
    rw [List.cons_append, lookup_cons, lookup_cons, ih]
    split <;> rfl

/-- After insertions into a map the last one under a key is found first. -/
theorem find_insertMany (j : κ) (new es : List (κ × α)) :
    lookup j (insertMany new es) = (lookup j new.reverse).or (lookup j es) := by
  induction new generalizing es with
  | nil => rfl
  | cons e new ih =>
    rw [insertMany, ih, lookup_insertEntry, List.reverse_cons, lookup_append, lookup_cons,
      Option.or_assoc]
    split <;> rfl

theorem forall_mem_insertMany {P : κ × α → Prop} (hnew : ∀ e ∈ new, P e) (hes : ∀ e ∈ es, P e) :
    ∀ e ∈ insertMany new es, P e := by
  induction new generalizing es with
  | nil => exact hes
  | cons f new ih =>
    obtain ⟨hf, hnew⟩ := List.forall_mem_cons.mp hnew
    refine ih hnew fun e he => ?_
    rcases mem_of_mem_insertEntry he with rfl | he
    · exact hf
    · exact hes e he

variable [LE κ] [Std.IsLinearOrder κ] [Std.LawfulOrderLT κ]

theorem insertEntry_sorted (h : es.Pairwise fun e f => e.1 < f.1) :
    (insertEntry k v es).Pairwise fun e f => e.1 < f.1 := by
  induction es with
  | nil => exact List.pairwise_singleton _ _
  | cons f es ih =>
    obtain ⟨k', v'⟩ := f
    obtain ⟨hf, hes⟩ := List.pairwise_cons.mp h
    rw [insertEntry]
    split
    · rename_i hlt
      refine List.pairwise_cons.mpr ⟨fun e he => ?_, h⟩
      rcases List.mem_cons.mp he with rfl | he
      · exact hlt
      · exact Std.lt_trans hlt (hf e he)
    · rename_i hnlt
      split
      · rename_i heq
        exact List.pairwise_cons.mpr ⟨fun e he => heq ▸ hf e he, hes⟩
      · rename_i hne
        refine List.pairwise_cons.mpr ⟨fun e he => ?_, ih hes⟩
        rcases mem_of_mem_insertEntry he with rfl | he
        · exact Std.lt_of_le_of_ne (Std.not_lt.mp hnlt) (Ne.symm hne)
        · exact hf e he

theorem insertMany_sorted (h : es.Pairwise fun e f => e.1 < f.1) :
    (insertMany new es).Pairwise fun e f => e.1 < f.1 := by
  induction new generalizing es with
  | nil => exact h
  | cons e new ih => exact ih (insertEntry_sorted h)

/-- A key above all others comes last. -/
theorem insertEntry_last (h : ∀ e ∈ es, e.1 < k) : insertEntry k v es = es ++ [(k, v)] := by
  induction es with
  | nil => rfl
  | cons f es ih =>
    obtain ⟨k', v'⟩ := f
    obtain ⟨hlt, hes⟩ := List.forall_mem_cons.mp h
    replace hlt : k' < k := hlt
    have hnlt : ¬k < k' := Std.not_lt.mpr (Std.le_of_lt hlt)
    have hne : k ≠ k' := fun heq => Std.lt_irrefl (heq ▸ hlt)
    rw [insertEntry, if_neg hnlt, if_neg hne, ih hes, List.cons_append]

/-- The map with `v` under `k`; an older value under `k` is replaced. -/
def insert (m : SortedMap κ α) (k : κ) (v : α) : SortedMap κ α :=
  ⟨insertEntry k v m.entries, insertEntry_sorted m.sorted⟩

theorem mem_of_mem_insert {m : SortedMap κ α} (h : e ∈ (m.insert k v).entries) :
    e = (k, v) ∨ e ∈ m.entries :=
  mem_of_mem_insertEntry h

theorem find?_insert (m : SortedMap κ α) (j k : κ) (v : α) :
    (m.insert k v).find? j = if k = j then some v else m.find? j :=
  lookup_insertEntry j k v m.entries

/-! ### Sums over the entries -/

section Totals
open Tiling
variable (f : κ × α → Nat)

omit [LT κ] [DecidableLT κ] [LE κ] in
theorem filter_ne_of_not_mem {k : κ} {es : List (κ × α)} (h : ∀ e ∈ es, e.1 ≠ k) :
    (es.filter fun e => e.1 ≠ k) = es :=
  List.filter_eq_self.mpr fun e he => decide_eq_true (h e he)

omit [LT κ] [DecidableLT κ] [LE κ] in
/-- Taking the entry of a key out of a list of distinct keys. -/
theorem total_filter_ne {es : List (κ × α)} (h : es.Pairwise fun d e => d.1 ≠ e.1) (k : κ) :
    total f (es.filter fun e => e.1 ≠ k) + (lookup k es).elim 0 (fun v => f (k, v)) =
      total f es := by
  induction es with
  | nil => rfl
  | cons e es ih =>
    obtain ⟨hhead, htail⟩ := List.pairwise_cons.mp h
    rw [lookup_cons]
    by_cases hk : e.1 = k
    · have hrest : ∀ d ∈ es, d.1 ≠ k := fun d hd heq => hhead d hd (hk.trans heq.symm)
      have hout : ¬ decide (e.1 ≠ k) = true := by simp [hk]
      rw [List.filter_cons, if_neg hout, filter_ne_of_not_mem hrest, if_pos hk, total_cons, Option.elim_some, ← hk]
      exact Nat.add_comm _ _
    · have hin : decide (e.1 ≠ k) = true := decide_eq_true hk
      rw [List.filter_cons, if_pos hin, if_neg hk, total_cons, total_cons,
        Nat.add_assoc, ih htail]

omit [LE κ] [Std.LawfulOrderLT κ] in
/-- Inserting under a key that is not there. -/
theorem total_insertEntry {k : κ} {es : List (κ × α)} (h : ∀ e ∈ es, e.1 ≠ k) (v : α) :
    total f (insertEntry k v es) = f (k, v) + total f es := by
  induction es with
  | nil => rfl
  | cons e es ih =>
    obtain ⟨hne, hes⟩ := List.forall_mem_cons.mp h
    rw [insertEntry]
    split
    · rfl
    · rw [if_neg fun heq => hne heq.symm, total_cons, total_cons, ih hes]
      exact Nat.add_left_comm _ _ _

omit [DecidableLT κ] [Std.IsLinearOrder κ] in
/-- Removing the entry of a key. -/
theorem total_erase (m : SortedMap κ α) (k : κ) :
    total f (m.erase k).entries + (m.find? k).elim 0 (fun v => f (k, v)) = total f m.entries := by
  have hsorted : m.entries.Pairwise fun d e => d.1 ≠ e.1 :=
    m.sorted.imp fun {d e} (hlt : d.1 < e.1) (heq : d.1 = e.1) => Std.lt_irrefl (heq ▸ hlt)
  exact total_filter_ne f hsorted k

/-- Inserting under a key whose entry was removed. -/
theorem total_insert_erase (m : SortedMap κ α) (k : κ) (v : α) :
    total f ((m.erase k).insert k v).entries = f (k, v) + total f (m.erase k).entries :=
  total_insertEntry f (fun _ he => (mem_erase.mp he).2) v

end Totals

end Ordered

section Dense
variable {α : Type}

variable (m : SortedMap Nat α)

theorem keys_nodup : m.keys.Nodup :=
  List.pairwise_map.mpr (m.sorted.imp fun h => Nat.ne_of_lt h)

theorem find?_isSome {m : SortedMap Nat α} {k : Nat} : (m.find? k).isSome ↔ k ∈ m.keys := by
  rw [find?, Option.isSome_map, List.find?_isSome, keys, List.mem_map]
  refine exists_congr fun e => and_congr_right fun _ => ?_
  rw [decide_eq_true_eq]

/-- A map with keys below `n` has `n` entries when it has an entry for each of them. -/
theorem length_eq_iff {m : SortedMap Nat α} {n : Nat} (h : ∀ k ∈ m.keys, k < n) :
    m.entries.length = n ↔ ∀ k < n, k ∈ m.keys := by
  have hsub : m.keys.Subperm (List.range n) :=
    m.keys_nodup.subperm fun k hk => List.mem_range.mpr (h k hk)
  have hlen : m.keys.length = m.entries.length := List.length_map ..
  rw [← hlen]
  constructor
  · intro heq k hk
    have hperm := hsub.perm_of_length_le (Nat.le_of_eq (by rw [List.length_range, heq]))
    exact hperm.mem_iff.mpr (List.mem_range.mpr hk)
  · intro hall
    have hback : (List.range n).Subperm m.keys :=
      List.nodup_range.subperm fun k hk => hall k (List.mem_range.mp hk)
    have hle := hsub.length_le
    have hge := hback.length_le
    rw [List.length_range] at hle hge
    exact Nat.le_antisymm hle hge

/-- The map without the entries that a test refuses. -/
def keep (m : SortedMap Nat α) (p : Nat → α → Bool) : SortedMap Nat α :=
  ⟨m.entries.filter fun e => p e.1 e.2, m.sorted.filter _⟩

/-- The value under a key changed, if there is one. -/
def adjust (m : SortedMap Nat α) (k : Nat) (f : α → α) : SortedMap Nat α :=
  ⟨m.entries.map fun e => if e.1 = k then (e.1, f e.2) else e, by
    refine List.pairwise_map.mpr (m.sorted.imp fun {e g} h => ?_)
    have hfst : ∀ e : Nat × α, (if e.1 = k then (e.1, f e.2) else e).1 = e.1 := fun e => by
      split <;> rfl
    rw [hfst, hfst]
    exact h⟩

theorem find?_eq_some {m : SortedMap Nat α} {k : Nat} {v : α} :
    m.find? k = some v ↔ (k, v) ∈ m.entries := by
  rw [find?, Option.map_eq_some_iff]
  constructor
  · rintro ⟨e, he, rfl⟩
    have hk := List.find?_some he
    rw [decide_eq_true_eq] at hk
    exact hk ▸ List.mem_of_find?_eq_some he
  · intro h
    refine ⟨(k, v), ?_, rfl⟩
    cases hf : m.entries.find? fun e => e.1 = k with
    | none =>
      have hne := List.find?_eq_none.mp hf (k, v) h
      exact absurd (decide_eq_true rfl) hne
    | some e =>
      have hk := List.find?_some hf
      rw [decide_eq_true_eq] at hk
      exact congrArg some
        (List.inj_on_of_nodup_map m.keys_nodup (List.mem_of_find?_eq_some hf) h hk)

theorem find?_keep (p : Nat → α → Bool) (k : Nat) :
    (m.keep p).find? k = (m.find? k).filter (p k) := by
  refine Option.ext fun v => ?_
  rw [find?_eq_some, Option.filter_eq_some_iff, find?_eq_some]
  exact List.mem_filter

theorem find?_adjust (k j : Nat) (f : α → α) :
    (m.adjust k f).find? j = if j = k then (m.find? j).map f else m.find? j := by
  refine Option.ext fun v => ?_
  rw [find?_eq_some]
  unfold adjust
  rw [List.mem_map]
  split
  · rename_i hj
    rw [Option.map_eq_some_iff]
    constructor
    · rintro ⟨e, he, heq⟩
      split at heq
      · obtain ⟨rfl, rfl⟩ := Prod.mk.inj heq
        exact ⟨e.2, find?_eq_some.mpr he, rfl⟩
      · rename_i hne
        exact absurd (heq ▸ hj) hne
    · rintro ⟨w, hw, rfl⟩
      exact ⟨(j, w), find?_eq_some.mp hw, by rw [if_pos hj]⟩
  · rename_i hj
    rw [find?_eq_some]
    constructor
    · rintro ⟨e, he, heq⟩
      split at heq
      · rename_i hk
        exact absurd ((congrArg Prod.fst heq).symm.trans hk) hj
      · exact heq ▸ he
    · intro hv
      exact ⟨(j, v), hv, if_neg hj⟩

theorem find?_erase (k j : Nat) : (m.erase k).find? j = if j = k then none else m.find? j := by
  refine Option.ext fun v => ?_
  rw [find?_eq_some, mem_erase]
  split
  · rename_i hj
    simp [hj]
  · rename_i hj
    simp [hj, find?_eq_some]

end Dense

end SortedMap
