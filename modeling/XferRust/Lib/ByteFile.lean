/-! # Files as lists

Writing at an offset and reading exactly, as positioned file I/O does them: a write beyond the
end fills the gap, a write of nothing leaves the file alone, and a read past the end fails.
What a write does is stated of each position; positions that it does not reach keep their value,
where a position beyond the end counts as holding `fill`.
-/
namespace ByteFile

variable {α : Type} (fill : α)

/-- Seek to `offset`, then write all of `data`. -/
def writeAt (file : List α) (offset : Nat) (data : List α) : List α :=
  if data.isEmpty then file
  else file.take offset ++ List.replicate (offset - file.length) fill ++ data ++
    file.drop (offset + data.length)

/-- Seek to `offset`, then read exactly `len`. -/
def readAt (file : List α) (offset len : Nat) : Option (List α) :=
  if len = 0 then some []
  else if offset + len ≤ file.length then some ((file.drop offset).take len)
  else none

variable {fill}

theorem writeAt_nil (file : List α) (offset : Nat) : writeAt fill file offset [] = file := rfl

variable {data file : List α} {offset : Nat}

theorem writeAt_of_ne_nil (h : data ≠ []) :
    writeAt fill file offset data = file.take offset ++
      List.replicate (offset - file.length) fill ++ data ++ file.drop (offset + data.length) := by
  rw [writeAt, if_neg (by rwa [List.isEmpty_iff])]

/-- What is written at the end is appended. -/
theorem writeAt_length (file data : List α) :
    writeAt fill file file.length data = file ++ data := by
  by_cases h : data = []
  · rw [h, writeAt_nil, List.append_nil]
  · rw [writeAt_of_ne_nil h, List.take_length, Nat.sub_self, List.replicate_zero, List.append_nil,
      List.drop_eq_nil_of_le (Nat.le_add_right _ _), List.append_nil]

theorem length_writeAt (h : data ≠ []) :
    (writeAt fill file offset data).length = max file.length (offset + data.length) := by
  rw [writeAt_of_ne_nil h]
  simp only [List.length_append, List.length_take, List.length_replicate, List.length_drop]
  omega

theorem length_le_writeAt (file data : List α) (offset : Nat) :
    file.length ≤ (writeAt fill file offset data).length := by
  by_cases h : data = []
  · exact Nat.le_of_eq (by rw [h, writeAt_nil])
  · rw [length_writeAt h]
    exact Nat.le_max_left _ _

variable {p : Nat}

/-- A longer file ends where the data does. -/
theorem lt_length_writeAt (h : p < (writeAt fill file offset data).length) :
    p < file.length ∨ p < offset + data.length ∧ data ≠ [] := by
  by_cases hd : data = []
  · rw [hd, writeAt_nil] at h
    exact .inl h
  · rw [length_writeAt hd] at h
    by_cases hp : p < file.length
    · exact .inl hp
    · exact .inr ⟨by omega, hd⟩

theorem getElem?_writeAt_of_mem (hlo : offset ≤ p) (hhi : p < offset + data.length) :
    (writeAt fill file offset data)[p]? = data[p - offset]? := by
  have hne : data ≠ [] := by
    rintro rfl
    rw [List.length_nil] at hhi
    omega
  rw [writeAt_of_ne_nil hne, List.getElem?_append_left, List.getElem?_append_right]
  · congr 1
    simp only [List.length_append, List.length_take, List.length_replicate]
    omega
  · simp only [List.length_append, List.length_take, List.length_replicate]
    omega
  · simp only [List.length_append, List.length_take, List.length_replicate]
    omega

/-- Where nothing is written, the value stays. -/
theorem getD_writeAt_of_not_mem (h : p < offset ∨ offset + data.length ≤ p) :
    ((writeAt fill file offset data)[p]?).getD fill = (file[p]?).getD fill := by
  by_cases hne : data = []
  · rw [hne, writeAt_nil]
  rw [writeAt_of_ne_nil hne]
  cases h with
  | inl hlt =>
    rw [List.getElem?_append_left, List.getElem?_append_left]
    · by_cases hp : p < file.length
      · rw [List.getElem?_append_left (by rw [List.length_take]; omega), List.getElem?_take,
          if_pos hlt]
      · rw [List.getElem?_append_right (by rw [List.length_take]; omega), List.getElem?_replicate,
          List.getElem?_eq_none (Nat.le_of_not_lt hp)]
        split <;> rfl
    · simp only [List.length_append, List.length_take, List.length_replicate]
      omega
    · simp only [List.length_append, List.length_take, List.length_replicate]
      omega
  | inr hge =>
    rw [List.getElem?_append_right, List.getElem?_drop]
    · congr 2
      simp only [List.length_append, List.length_take, List.length_replicate]
      omega
    · simp only [List.length_append, List.length_take, List.length_replicate]
      omega

/-- Where a file has a value, a write that does not reach it keeps it. -/
theorem getElem?_eq_some_of_getD {file' : List α} {a : α} (h : file[p]? = some a)
    (hlen : file.length ≤ file'.length) (hget : (file'[p]?).getD fill = (file[p]?).getD fill) :
    file'[p]? = some a := by
  obtain ⟨hp, -⟩ := List.getElem?_eq_some_iff.mp h
  rw [h, Option.getD_some] at hget
  rw [List.getElem?_eq_getElem (by omega)] at hget ⊢
  exact congrArg some hget

theorem readAt_eq_some {out : List α} {len : Nat} :
    readAt file offset len = some out ↔
      out.length = len ∧ ∀ j < len, file[offset + j]? = out[j]? := by
  unfold readAt
  split
  · rename_i hzero
    subst hzero
    constructor
    · intro h
      rw [← Option.some.inj h]
      exact ⟨rfl, fun j hj => absurd hj (Nat.not_lt_zero j)⟩
    · rintro ⟨hlen, -⟩
      rw [List.length_eq_zero_iff.mp hlen]
  · rename_i hpos
    split
    · rename_i hle
      have hlen : ((file.drop offset).take len).length = len := by
        rw [List.length_take, List.length_drop]
        omega
      constructor
      · intro h
        rw [← Option.some.inj h]
        refine ⟨hlen, fun j hj => ?_⟩
        rw [List.getElem?_take, if_pos hj, List.getElem?_drop]
      · rintro ⟨hout, hget⟩
        refine congrArg some (List.ext_getElem? fun j => ?_)
        by_cases hj : j < len
        · rw [List.getElem?_take, if_pos hj, List.getElem?_drop, hget j hj]
        · rw [List.getElem?_eq_none (by omega), List.getElem?_eq_none (by omega)]
    · rename_i hgt
      refine ⟨nofun, fun ⟨hout, hget⟩ => ?_⟩
      have hlast := hget (len - 1) (by omega)
      rw [List.getElem?_eq_none (by omega), List.getElem?_eq_getElem (by omega)] at hlast
      cases hlast

/-- Files that agree where one of them can be read give the same. -/
theorem readAt_mono {file' out : List α} {len : Nat} (h : readAt file offset len = some out)
    (hagree : ∀ p a, offset ≤ p → p < offset + len → file[p]? = some a → file'[p]? = some a) :
    readAt file' offset len = some out := by
  obtain ⟨hlen, hget⟩ := readAt_eq_some.mp h
  refine readAt_eq_some.mpr ⟨hlen, fun j hj => ?_⟩
  have hj' := hget j hj
  rw [List.getElem?_eq_getElem (show j < out.length by omega)] at hj' ⊢
  exact hagree _ _ (by omega) (by omega) hj'

end ByteFile
