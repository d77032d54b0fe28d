/-! # Streams on one channel

The pieces of several streams follow one another, each under the key of its stream; a piece begins
a unit of its stream or carries one on.  A reader that keeps one open unit, the one that was begun
last, loses what comes for any other.
-/
namespace Demux

/-- A piece of a stream. -/
structure Piece (κ α : Type) where
  key : κ
  /-- The piece begins a unit. -/
  start : Bool
  items : List α

variable {κ α : Type} [DecidableEq κ]

/-- The items up to the next piece that begins a unit. -/
def carried (pieces : List (Piece κ α)) : List α :=
  (pieces.takeWhile fun p => !p.start).flatMap Piece.items

/-- The units of a stream, from its pieces alone: what comes before the first start is no part
of any. -/
def unitsOf : List (Piece κ α) → List (List α)
  | [] => []
  | p :: pieces => if p.start then (p.items ++ carried pieces) :: unitsOf pieces else unitsOf pieces

/-- The units of the stream under a key. -/
def units (k : κ) (pieces : List (Piece κ α)) : List (List α) :=
  unitsOf (pieces.filter fun p => p.key = k)

/-- What comes for the open unit of a key before the next unit begins, under whatever key. -/
def inTurn (k : κ) (pieces : List (Piece κ α)) : List α :=
  ((pieces.takeWhile fun p => !p.start).filter fun p => p.key = k).flatMap Piece.items

variable {p : Piece κ α} (k : κ)

theorem inTurn_cons_start (pieces : List (Piece κ α)) (h : p.start = true) :
    inTurn k (p :: pieces) = [] := by
  rw [inTurn, List.takeWhile_cons, h]
  rfl

theorem inTurn_cons_carry (pieces : List (Piece κ α)) (h : ¬p.start = true) :
    inTurn k (p :: pieces) = (if p.key = k then p.items else []) ++ inTurn k pieces := by
  have hcont : (!p.start) = true := Bool.not_eq_true' _ ▸ Bool.eq_false_iff.mpr h
  rw [inTurn, List.takeWhile_cons, if_pos hcont]
  by_cases hk : p.key = k
  · rw [if_pos hk, List.filter_cons, if_pos (decide_eq_true hk), List.flatMap_cons]
    rfl
  · rw [if_neg hk, List.filter_cons, if_neg fun h => hk (of_decide_eq_true h)]
    rfl

/-- The units as a reader puts them together that keeps the last one open. -/
def assemble : List (Piece κ α) → List (κ × List α)
  | [] => []
  | p :: pieces =>
    if p.start then (p.key, p.items ++ inTurn p.key pieces) :: assemble pieces else assemble pieces

/-- The units as the same reader puts them together that has a unit open already. -/
def assembleOpen (u : κ × List α) (pieces : List (Piece κ α)) : List (κ × List α) :=
  (u.1, u.2 ++ inTurn u.1 pieces) :: assemble pieces

theorem assemble_cons_start (pieces : List (Piece κ α)) (h : p.start = true) :
    assemble (p :: pieces) = assembleOpen (p.key, p.items) pieces := by
  rw [assemble, if_pos h]
  rfl

theorem assemble_cons_carry (pieces : List (Piece κ α)) (h : ¬p.start = true) :
    assemble (p :: pieces) = assemble pieces := by
  rw [assemble, if_neg h]

theorem assembleOpen_nil (u : κ × List α) : assembleOpen u [] = [u] := by
  show [(u.1, u.2 ++ [])] = [u]
  rw [List.append_nil]

theorem assembleOpen_cons_start (u : κ × List α) (pieces : List (Piece κ α)) (h : p.start = true) :
    assembleOpen u (p :: pieces) = u :: assembleOpen (p.key, p.items) pieces := by
  rw [assembleOpen, inTurn_cons_start u.1 pieces h, List.append_nil, assemble_cons_start pieces h]

theorem assembleOpen_cons_carry (u : κ × List α) (pieces : List (Piece κ α)) (h : ¬p.start = true) :
    assembleOpen u (p :: pieces) =
      assembleOpen (if u.1 = p.key then (u.1, u.2 ++ p.items) else u) pieces := by
  rw [assembleOpen, inTurn_cons_carry u.1 pieces h, assemble_cons_carry pieces h]
  by_cases hk : u.1 = p.key
  · rw [if_pos hk.symm, if_pos hk, ← List.append_assoc]
    rfl
  · rw [if_neg fun h => hk h.symm, if_neg hk, List.nil_append]
    rfl

/-- What comes for a key after a unit was begun, under whatever key, and before one of its own
is. -/
def late (k : κ) (pieces : List (Piece κ α)) : List α :=
  carried ((pieces.dropWhile fun p => !p.start).filter fun p => p.key = k)

/-- The open unit gets the first part of what is carried, and the rest is late. -/
theorem carried_filter (pieces : List (Piece κ α)) :
    carried (pieces.filter fun p => p.key = k) = inTurn k pieces ++ late k pieces := by
  have hcont : ∀ p ∈ (pieces.takeWhile fun p => !p.start).filter fun p => p.key = k,
      (!p.start) = true :=
    fun p hp => List.all_eq_true.mp List.all_takeWhile p (List.mem_filter.mp hp).1
  have hsplit : (pieces.filter fun p => p.key = k) =
      ((pieces.takeWhile fun p => !p.start).filter fun p => p.key = k) ++
        ((pieces.dropWhile fun p => !p.start).filter fun p => p.key = k) := by
    rw [← List.filter_append, List.takeWhile_append_dropWhile]
  rw [carried, hsplit, List.takeWhile_append_of_pos hcont, List.flatMap_append]
  rfl

/-- What the reader has put together under a key. -/
def assembled (k : κ) (pieces : List (Piece κ α)) : List (List α) :=
  ((assemble pieces).filter fun u => u.1 = k).map Prod.snd

theorem assembled_cons (p : Piece κ α) (pieces : List (Piece κ α)) :
    assembled k (p :: pieces) =
      if p.start ∧ p.key = k then (p.items ++ inTurn k pieces) :: assembled k pieces
        else assembled k pieces := by
  rw [assembled, assemble]
  by_cases hs : p.start = true
  · rw [if_pos hs]
    by_cases hk : p.key = k
    · rw [List.filter_cons, if_pos (decide_eq_true hk), if_pos ⟨hs, hk⟩, List.map_cons, hk]
      rfl
    · rw [List.filter_cons, if_neg fun h => hk (of_decide_eq_true h), if_neg fun h => hk h.2]
      rfl
  · rw [if_neg hs, if_neg fun h => hs h.1]
    rfl

theorem units_cons (p : Piece κ α) (pieces : List (Piece κ α)) :
    units k (p :: pieces) =
      if p.start ∧ p.key = k then
        (p.items ++ (inTurn k pieces ++ late k pieces)) :: units k pieces
      else units k pieces := by
  rw [units]
  by_cases hk : p.key = k
  · rw [List.filter_cons, if_pos (decide_eq_true hk), unitsOf, carried_filter]
    by_cases hs : p.start = true
    · rw [if_pos hs, if_pos ⟨hs, hk⟩]
      rfl
    · rw [if_neg hs, if_neg fun h => hs h.1]
      rfl
  · rw [List.filter_cons, if_neg fun h => hk (of_decide_eq_true h), if_neg fun h => hk h.2]
    rfl

/-- Nothing comes late for a unit of the key. -/
def Timely (k : κ) (pieces : List (Piece κ α)) : Prop :=
  ∀ before p after, pieces = before ++ p :: after → p.start → p.key = k → late k after = []

theorem timely_cons {k : κ} {pieces : List (Piece κ α)} :
    Timely k (p :: pieces) ↔ (p.start → p.key = k → late k pieces = []) ∧ Timely k pieces := by
  constructor
  · intro h
    exact ⟨h [] p pieces rfl, fun before q after heq => h (p :: before) q after
      (congrArg (p :: ·) heq)⟩
  · rintro ⟨hp, h⟩ before q after heq hs hk
    cases before with
    | nil =>
      obtain ⟨rfl, rfl⟩ := List.cons.inj heq
      exact hp hs hk
    | cons _ before => exact h before q after (List.cons.inj heq).2 hs hk

/-- **When one open unit is enough** for a key: exactly when nothing comes late for it. -/
theorem assembled_eq_units_iff {k : κ} {pieces : List (Piece κ α)} :
    assembled k pieces = units k pieces ↔ Timely k pieces := by
  induction pieces with
  | nil => exact ⟨fun _ before p after h => by simp at h, fun _ => rfl⟩
  | cons p pieces ih =>
    rw [assembled_cons, units_cons, timely_cons, ← ih]
    by_cases h : p.start = true ∧ p.key = k
    · rw [if_pos h, if_pos h, List.cons.injEq]
      refine and_congr_left fun _ => ?_
      constructor
      · intro heq _ _
        have hlen := congrArg List.length (List.append_cancel_left heq)
        rw [List.length_append] at hlen
        exact List.eq_nil_of_length_eq_zero (by omega)
      · intro hlate
        rw [hlate h.1 h.2, List.append_nil]
    · rw [if_neg h, if_neg h]
      exact ⟨fun heq => ⟨fun hs hk => absurd ⟨hs, hk⟩ h, heq⟩, fun h => h.2⟩

end Demux
