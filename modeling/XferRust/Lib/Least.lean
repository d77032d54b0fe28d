import Mathlib.Data.List.Sort
import Mathlib.Data.List.Dedup

/-! # The least elements of a list

A search keeps a bounded list of the best candidates, and goes on with them and with what is new.
Nothing is lost by that: what is least of the least and of what is new is least of all.
-/
namespace Least

variable {α : Type} [LinearOrder α] {k : Nat} {all l : List α}

/-- `l` is the `k` least elements of `all`, in order and each of them once. -/
structure LeastOf (k : Nat) (all l : List α) : Prop where
  sorted : l.Pairwise (· < ·)
  length : l.length ≤ k
  least : ∀ a ∈ all, a ∈ l ∨ l.length = k ∧ ∀ b ∈ l, b < a

theorem leastOf_take (h : all.Pairwise (· ≤ ·)) : LeastOf k all (all.dedup.take k) := by
  have hlt : all.dedup.Pairwise (· < ·) :=
    ((h.sublist (List.dedup_sublist all)).and all.nodup_dedup).imp fun h => lt_of_le_of_ne h.1 h.2
  refine ⟨hlt.sublist (List.take_sublist _ _), List.length_take_le _ _, fun a ha => ?_⟩
  have hsplit := List.take_append_drop k all.dedup
  rw [← List.mem_dedup, ← hsplit] at ha
  refine (List.mem_append.mp ha).imp_right fun ha => ⟨?_, fun b hb => ?_⟩
  · have := List.length_pos_of_mem ha
    rw [List.length_drop] at this
    rw [List.length_take]
    omega
  · rw [← hsplit] at hlt
    exact (List.pairwise_append.mp hlt).2.2 b hb a ha

/-- **Candidates may be dropped early.** -/
theorem LeastOf.trans {new l' : List α} (h : LeastOf k all l) (h' : LeastOf k (l ++ new) l') :
    LeastOf k (all ++ new) l' := by
  refine ⟨h'.sorted, h'.length, fun a ha => ?_⟩
  rcases List.mem_append.mp ha with ha | ha
  · rcases h.least a ha with ha | ⟨hlen, hlt⟩
    · exact h'.least a (List.mem_append_left _ ha)
    right
    by_cases hall : l ⊆ l'
    · -- then both are the same elements
      have hperm := (List.subperm_of_subset h.sorted.nodup hall).perm_of_length_le (hlen ▸ h'.length)
      exact ⟨hperm.length_eq ▸ hlen, fun b hb => hlt b (hperm.mem_iff.mpr hb)⟩
    · obtain ⟨o, ho, hno⟩ : ∃ o ∈ l, o ∉ l' := by simpa [List.subset_def] using hall
      obtain ⟨hlen', hlt'⟩ := (h'.least o (List.mem_append_left _ ho)).resolve_left hno
      exact ⟨hlen', fun b hb => (hlt' b hb).trans (hlt o ho)⟩
  · exact h'.least a (List.mem_append_right _ ha)

end Least
