/-! # The first place of a marker

Where a marker is first found in a stream is determined by the stream: two ways to cut a stream at
a marker that does not begin earlier are one (`FirstAt.unique`).
-/
namespace Search

variable {α : Type} [DecidableEq α]

/-- The first position at which `marker` begins. -/
def position (marker : List α) : List α → Option Nat
  | [] => none
  | x :: xs =>
    if marker.isPrefixOf (x :: xs) then some 0 else (position marker xs).map (· + 1)

omit [DecidableEq α] in
/-- The marker behind `pre` does not begin before its end. -/
def FirstAt (marker pre : List α) : Prop :=
  ∀ k < pre.length, ¬ marker <+: (pre ++ marker).drop k

instance decidableFirstAt (marker pre : List α) : Decidable (FirstAt marker pre) :=
  decidable_of_iff (∀ k < pre.length, marker.isPrefixOf ((pre ++ marker).drop k) = false) (by
    unfold FirstAt
    simp only [← Bool.not_eq_true, List.isPrefixOf_iff_prefix])

variable {marker pre xs : List α} {k : Nat}

/-- What is found is the marker, and it does not begin before. -/
theorem position_eq_some {buf : List α} {p : Nat} (h : position marker buf = some p) :
    marker <+: buf.drop p ∧ p < buf.length ∧ ∀ k < p, ¬ marker <+: buf.drop k := by
  induction buf generalizing p with
  | nil => cases h
  | cons x xs ih =>
    unfold position at h
    split at h
    · rename_i hp
      obtain rfl := Option.some.inj h
      exact ⟨List.isPrefixOf_iff_prefix.mp hp, Nat.succ_pos _, fun k hk => absurd hk k.not_lt_zero⟩
    · rename_i hp
      obtain ⟨q, hq, rfl⟩ := Option.map_eq_some_iff.mp h
      obtain ⟨hpre, hlt, hfirst⟩ := ih hq
      refine ⟨hpre, Nat.succ_lt_succ hlt, fun k hk => ?_⟩
      cases k with
      | zero => exact fun hm => hp (List.isPrefixOf_iff_prefix.mpr hm)
      | succ k => exact hfirst k (Nat.lt_of_succ_lt_succ hk)

/-- What is not found is nowhere. -/
theorem position_eq_none {buf : List α} (hne : marker ≠ []) (h : position marker buf = none)
    (k : Nat) : ¬ marker <+: buf.drop k := by
  induction buf generalizing k with
  | nil =>
    rw [List.drop_nil]
    exact fun hm => hne (List.prefix_nil.mp hm)
  | cons x xs ih =>
    unfold position at h
    split at h
    · cases h
    · rename_i hp
      cases k with
      | zero => exact fun hm => hp (List.isPrefixOf_iff_prefix.mpr hm)
      | succ k => exact ih (Option.map_eq_none_iff.mp h) k

omit [DecidableEq α] in
/-- A marker begins where it begins, whatever follows. -/
theorem prefix_drop_append (more : List α) (h : marker <+: xs.drop k) (hne : marker ≠ []) :
    marker <+: (xs ++ more).drop k := by
  rcases Nat.lt_or_ge k xs.length with hk | hk
  · rw [List.drop_append_of_le_length (Nat.le_of_lt hk)]
    exact h.trans (List.prefix_append _ _)
  · rw [List.drop_eq_nil_of_le hk] at h
    exact absurd (List.prefix_nil.mp h) hne

omit [DecidableEq α] in
/-- A marker that ends within `xs` is found there already. -/
theorem prefix_drop_of_append {more : List α} (hlen : k + marker.length ≤ xs.length)
    (h : marker <+: (xs ++ more).drop k) : marker <+: xs.drop k := by
  rw [List.drop_append_of_le_length (by omega)] at h
  exact List.prefix_of_prefix_length_le h (List.prefix_append _ _)
    (by rw [List.length_drop]; omega)

omit [DecidableEq α] in
theorem FirstAt.not_longer {pre' rest rest' : List α} (h' : FirstAt marker pre')
    (heq : pre ++ (marker ++ rest) = pre' ++ (marker ++ rest')) : ¬ pre.length < pre'.length := by
  intro hlt
  refine h' pre.length hlt (prefix_drop_of_append (by rw [List.length_append]; omega)
    (?_ : marker <+: (pre' ++ marker ++ rest').drop pre.length))
  rw [List.append_assoc, ← heq, List.drop_left]
  exact List.prefix_append _ _

omit [DecidableEq α] in
/-- **There is one first place.** -/
theorem FirstAt.unique {pre' rest rest' : List α} (h : FirstAt marker pre)
    (h' : FirstAt marker pre') (heq : pre ++ (marker ++ rest) = pre' ++ (marker ++ rest')) :
    pre = pre' ∧ rest = rest' := by
  have hlen : pre.length = pre'.length :=
    Nat.le_antisymm (Nat.le_of_not_lt (h.not_longer heq.symm)) (Nat.le_of_not_lt (h'.not_longer heq))
  obtain ⟨hpre, hrest⟩ := List.append_inj heq hlen
  exact ⟨hpre, List.append_cancel_left hrest⟩

/-- What is found is cut off in front of the marker. -/
theorem position_cut (hne : marker ≠ []) (h : position marker xs = some k) :
    ∃ pre rest, xs = pre ++ (marker ++ rest) ∧ pre.length = k ∧ FirstAt marker pre := by
  obtain ⟨⟨rest, hrest⟩, hlt, hfirst⟩ := position_eq_some h
  have hlen : (xs.take k).length = k := List.length_take_of_le (Nat.le_of_lt hlt)
  have hxs : xs = xs.take k ++ (marker ++ rest) := by rw [hrest, List.take_append_drop]
  refine ⟨xs.take k, rest, hxs, hlen, fun j hj hm => ?_⟩
  refine hfirst j (hlen ▸ hj) ?_
  have hmore := prefix_drop_append rest hm hne
  rwa [List.append_assoc, ← hxs] at hmore

/-- A marker that is there has a first place. -/
theorem exists_firstAt (hne : marker ≠ []) (h : marker <+: xs.drop k) :
    ∃ pre rest, xs = pre ++ (marker ++ rest) ∧ pre.length ≤ k ∧ FirstAt marker pre := by
  cases hpos : position marker xs with
  | none => exact absurd h (position_eq_none hne hpos k)
  | some j =>
    obtain ⟨pre, rest, hxs, hlen, hfirst⟩ := position_cut hne hpos
    refine ⟨pre, rest, hxs, ?_, hfirst⟩
    obtain ⟨-, -, hleast⟩ := position_eq_some hpos
    rw [hlen]
    exact Nat.le_of_not_lt fun hlt => hleast k hlt h

theorem position_append (hne : marker ≠ []) (h : FirstAt marker pre) (rest : List α) :
    position marker (pre ++ (marker ++ rest)) = some pre.length := by
  have hthere : marker <+: (pre ++ (marker ++ rest)).drop pre.length := by
    rw [List.drop_left]
    exact List.prefix_append _ _
  cases hpos : position marker (pre ++ (marker ++ rest)) with
  | none => exact absurd hthere (position_eq_none hne hpos pre.length)
  | some k =>
    obtain ⟨pre', rest', heq, rfl, hfirst⟩ := position_cut hne hpos
    rw [(h.unique hfirst heq).1]

end Search
