import Mathlib.Data.List.AList

/-! # Maps without an order

Additions to `AList` for maps whose values are all of one type: what `retain` leaves, and the
entries as pairs, which is what an iteration goes through.
-/
namespace AList

variable {κ β : Type}

/-- The entries as pairs. -/
def pairs (m : AList fun _ : κ => β) : List (κ × β) := m.entries.map fun e => (e.1, e.2)

/-- The entries that `p` holds of. -/
def retain (p : κ → β → Bool) (m : AList fun _ : κ => β) : AList fun _ : κ => β :=
  ⟨m.entries.filter fun e => p e.1 e.2, m.nodupKeys.sublist List.filter_sublist⟩

variable [DecidableEq κ]

theorem mem_pairs {m : AList fun _ : κ => β} {k : κ} {v : β} :
    (k, v) ∈ m.pairs ↔ m.lookup k = some v := by
  rw [← Option.mem_def, mem_lookup_iff, pairs, List.mem_map]
  constructor
  · rintro ⟨e, he, heq⟩
    obtain ⟨rfl, rfl⟩ := Prod.mk.inj heq
    exact he
  · intro h
    exact ⟨⟨k, v⟩, h, rfl⟩

@[simp] theorem lookup_retain (p : κ → β → Bool) (m : AList fun _ : κ => β) (k : κ) :
    (m.retain p).lookup k = (m.lookup k).filter (p k) := by
  refine Option.ext fun v => ?_
  rw [← Option.mem_def, ← Option.mem_def, mem_lookup_iff, Option.mem_filter_iff, mem_lookup_iff,
    retain, List.mem_filter]

theorem mem_map_pairs_fst {m : AList fun _ : κ => β} {k : κ} :
    k ∈ m.pairs.map Prod.fst ↔ m.lookup k ≠ none := by
  rw [List.mem_map, Option.ne_none_iff_exists']
  constructor
  · rintro ⟨⟨k', v⟩, h, rfl⟩
    exact ⟨v, mem_pairs.mp h⟩
  · rintro ⟨v, h⟩
    exact ⟨(k, v), mem_pairs.mpr h, rfl⟩

theorem lookup_insert_eq (k k' : κ) (v : β) (m : AList fun _ : κ => β) :
    (m.insert k v).lookup k' = if k' = k then some v else m.lookup k' := by
  split
  · rename_i h
    rw [h, lookup_insert]
  · rename_i h
    exact lookup_insert_ne h

theorem lookup_erase_eq (k k' : κ) (m : AList fun _ : κ => β) :
    (m.erase k).lookup k' = if k' = k then none else m.lookup k' := by
  split
  · rename_i h
    rw [h, lookup_erase]
  · rename_i h
    exact lookup_erase_ne h

end AList
