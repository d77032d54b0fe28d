import XferRust.Lib.BigEndian

/-! # Boxes

A box of the ISO base media file format begins with its size in 32 bits and its type; the size 1
stands for one in 64 bits behind the type, and 0 for all there is.  `boxes` takes a row of boxes
apart, up to the first that is not whole.
-/
namespace IsoBoxes

/-- The size that a box gives itself, and the length of its head. -/
def boxHead (rest : List UInt8) : Option (Nat × Nat) :=
  if rest.length < 8 then none
  else
    let size := BigEndian.toNat (rest.take 4)
    if size = 1 then
      if rest.length < 16 then none
      else some (BigEndian.toNat ((rest.drop 8).take 8), 16)
    else if size = 0 then some (rest.length, 8)
    else some (size, 8)

/-- The length of the whole box that the bytes begin with. -/
def wholeBox (rest : List UInt8) : Option Nat :=
  (boxHead rest).bind fun head =>
    if head.2 ≤ head.1 ∧ head.1 ≤ rest.length then some head.1 else none

variable {rest : List UInt8} {total : Nat}

theorem boxHead_eq_some {hdr : Nat} (h : boxHead rest = some (total, hdr)) :
    8 ≤ hdr ∧ hdr ≤ rest.length := by
  unfold boxHead at h
  split at h
  · cases h
  · dsimp only at h
    split at h
    · split at h
      · cases h
      · obtain ⟨-, rfl⟩ := Prod.mk.inj (Option.some.inj h)
        omega
    · split at h
      · obtain ⟨-, rfl⟩ := Prod.mk.inj (Option.some.inj h)
        omega
      · obtain ⟨-, rfl⟩ := Prod.mk.inj (Option.some.inj h)
        omega

theorem wholeBox_eq_some (h : wholeBox rest = some total) : 8 ≤ total ∧ total ≤ rest.length := by
  obtain ⟨⟨n, hdr⟩, hhead, htotal⟩ := Option.bind_eq_some_iff.mp h
  have hbounds := boxHead_eq_some hhead
  dsimp only at htotal
  split at htotal
  · rename_i hfit
    obtain rfl := Option.some.inj htotal
    omega
  · cases htotal

/-- The boxes at the front, and what is left behind them. -/
def boxes (rest : List UInt8) : List (List UInt8) × List UInt8 :=
  match _h : wholeBox rest with
  | none => ([], rest)
  | some total =>
    let more := boxes (rest.drop total)
    (rest.take total :: more.1, more.2)
termination_by rest.length
decreasing_by
  have := wholeBox_eq_some _h
  rw [List.length_drop]
  omega

theorem boxes_none (h : wholeBox rest = none) : boxes rest = ([], rest) := by
  rw [boxes]
  split
  · rfl
  · rename_i heq
    rw [h] at heq
    cases heq

theorem boxes_some (h : wholeBox rest = some total) :
    boxes rest =
      (rest.take total :: (boxes (rest.drop total)).1, (boxes (rest.drop total)).2) := by
  rw [boxes]
  split
  · rename_i heq
    rw [h] at heq
    cases heq
  · rename_i n heq
    obtain rfl := Option.some.inj (heq.symm.trans h)
    rfl

/-- **Nothing is lost.** -/
theorem join_boxes (rest : List UInt8) : (boxes rest).1.flatten ++ (boxes rest).2 = rest := by
  induction h : rest.length using Nat.strongRecOn generalizing rest with
  | ind n ih =>
    subst h
    cases hbox : wholeBox rest with
    | none => rw [boxes_none hbox]; rfl
    | some total =>
      obtain ⟨hpos, hle⟩ := wholeBox_eq_some hbox
      rw [boxes_some hbox, List.flatten_cons, List.append_assoc,
        ih _ (by rw [List.length_drop]; omega) (rest.drop total) rfl, List.take_append_drop]

/-- None of the boxes is shorter than a head. -/
theorem eight_le_length {box : List UInt8} (h : box ∈ (boxes rest).1) : 8 ≤ box.length := by
  induction hn : rest.length using Nat.strongRecOn generalizing rest with
  | ind n ih =>
    subst hn
    cases hbox : wholeBox rest with
    | none =>
      rw [boxes_none hbox] at h
      exact (List.not_mem_nil h).elim
    | some total =>
      obtain ⟨hpos, hle⟩ := wholeBox_eq_some hbox
      rw [boxes_some hbox] at h
      rcases List.mem_cons.mp h with rfl | h
      · rw [List.length_take]
        omega
      · exact ih _ (by rw [List.length_drop]; omega) h rfl

end IsoBoxes
