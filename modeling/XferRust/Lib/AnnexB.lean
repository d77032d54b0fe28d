/-! # Byte streams with start codes

A byte stream of H.264 is a row of pieces, each a start code and the bytes up to the next one.  The
code is `00 00 01`, and a zero byte right before it belongs to it.  `cut` takes a stream apart, and
`join` puts it together: they undo each other on pieces that hold no start code (`cut_join`).
-/
namespace AnnexB

/-- A start code and the bytes behind it. -/
structure Piece where
  /-- The start code has the zero byte. -/
  long : Bool
  slice : List UInt8

namespace Piece

def code (p : Piece) : List UInt8 := if p.long then [0, 0, 0, 1] else [0, 0, 1]

def text (p : Piece) : List UInt8 := p.code ++ p.slice

end Piece

/-- `00 00 01`. -/
def startCode : List UInt8 := [0, 0, 1]

/-- The bytes before the first start code, and the pieces. -/
def cut : List UInt8 → List UInt8 × List Piece
  | [] => ([], [])
  | b :: rest =>
    let (front, pieces) := cut rest
    -- What follows `00` and `00 01` has been cut already, and holds no other code.
    if startCode <+: b :: rest then ([], { long := false, slice := front.drop 2 } :: pieces)
    else if b = 0 ∧ startCode <+: rest then
      ([], pieces.modifyHead fun p => { p with long := true })
    else (b :: front, pieces)

def join (front : List UInt8) (pieces : List Piece) : List UInt8 :=
  front ++ pieces.flatMap Piece.text

/-- No start code stands in the bytes. -/
def Codeless (l : List UInt8) : Prop := ¬startCode <:+: l

variable {b : UInt8} {l : List UInt8}

theorem Codeless.tail (h : Codeless (b :: l)) : Codeless l :=
  fun hl => h (hl.trans (List.suffix_cons b l).isInfix)

theorem Codeless.not_startCode (h : Codeless (b :: l)) :
    ¬startCode <+: b :: l := fun hp => h hp.isInfix

theorem codeless_nil : Codeless [] := by
  rw [Codeless, List.infix_nil]
  exact List.cons_ne_nil _ _

theorem codeless_cons : Codeless (b :: l) ↔ ¬startCode <+: b :: l ∧ Codeless l := by
  constructor
  · exact fun h => ⟨h.not_startCode, h.tail⟩
  · rintro ⟨hhead, htail⟩ h
    rcases List.infix_cons_iff.mp h with h | h
    · exact hhead h
    · exact htail h

/-! ## Cutting -/

@[simp] theorem startCode_prefix_iff : startCode <+: l ↔ ∃ rest, l = 0 :: 0 :: 1 :: rest := by
  constructor
  · rintro ⟨rest, rfl⟩
    exact ⟨rest, rfl⟩
  · rintro ⟨rest, rfl⟩
    exact ⟨rest, rfl⟩

theorem cut_byte (b : UInt8) (l : List UInt8) :
    cut (b :: l) =
      if startCode <+: b :: l then ([], { long := false, slice := (cut l).1.drop 2 } :: (cut l).2)
      else if b = 0 ∧ startCode <+: l then
        ([], (cut l).2.modifyHead fun p => { p with long := true })
      else (b :: (cut l).1, (cut l).2) := rfl

/-- A byte with which no code begins. -/
theorem cut_cons (h : ¬startCode <+: b :: l) (hlong : ¬(b = 0 ∧ startCode <+: l)) :
    cut (b :: l) = (b :: (cut l).1, (cut l).2) := by
  rw [cut_byte, if_neg h, if_neg hlong]

/-- The bytes behind a start code are cut alone. -/
theorem cut_code (l : List UInt8) :
    cut (0 :: 0 :: 1 :: l) = ([], { long := false, slice := (cut l).1 } :: (cut l).2) := by
  rw [cut_byte, if_pos ⟨l, rfl⟩, cut_cons (by simp) (by simp), cut_cons (by simp) (by simp)]
  rfl

theorem cut_longCode (l : List UInt8) :
    cut (0 :: 0 :: 0 :: 1 :: l) = ([], { long := true, slice := (cut l).1 } :: (cut l).2) := by
  rw [cut_byte, cut_code, if_neg (by simp), if_pos ⟨rfl, l, rfl⟩]
  rfl

variable (p : Piece)

theorem cut_text (l : List UInt8) :
    cut (p.code ++ l) = ([], { p with slice := (cut l).1 } :: (cut l).2) := by
  obtain ⟨long, slice⟩ := p
  cases long with
  | false => exact cut_code l
  | true => exact cut_longCode l

/-- A code begins with two zeros. -/
theorem code_eq : ∃ rest, p.code = 0 :: 0 :: rest := by
  obtain ⟨long, slice⟩ := p
  cases long with
  | false => exact ⟨_, rfl⟩
  | true => exact ⟨_, rfl⟩

variable {t : List UInt8}

/-- No start code begins in bytes that have none, as they stand before a start code. -/
theorem not_startCode_append (l : List UInt8) (ht : Codeless (b :: t)) :
    ¬startCode <+: b :: (t ++ (p.code ++ l)) := by
  intro h
  obtain ⟨rest, hrest⟩ := startCode_prefix_iff.mp h
  obtain ⟨code, hcode⟩ := code_eq p
  rw [hcode] at hrest
  match t with
  | [] => simp at hrest
  | [c] => simp at hrest
  | c :: d :: t =>
    simp only [List.cons_append, List.cons.injEq] at hrest
    obtain ⟨rfl, rfl, rfl, -⟩ := hrest
    exact ht.not_startCode ⟨t, rfl⟩

theorem startCode_code_iff (l : List UInt8) : startCode <+: p.code ++ l ↔ p.long = false := by
  cases hlong : p.long <;> simp [Piece.code, hlong]

/-- **Bytes without a start code before one**: a zero at their end goes to a short code. -/
theorem cut_append (l : List UInt8) (ht : Codeless t) :
    cut (t ++ (p.code ++ l)) =
      if p.long = false ∧ t.getLast? = some 0 then
        (t.dropLast, { long := true, slice := (cut l).1 } :: (cut l).2)
      else (t, { p with slice := (cut l).1 } :: (cut l).2) := by
  induction t with
  | nil => rw [List.nil_append, cut_text, if_neg (by simp)]
  | cons b t ih =>
    have hno := not_startCode_append p l ht
    rw [List.cons_append, cut_byte, ih ht.tail, if_neg hno]
    cases t with
    | nil =>
      simp only [List.nil_append, startCode_code_iff, List.getLast?_nil, List.getLast?_singleton,
        Option.some.injEq, reduceCtorEq, and_comm]
      split
      · rfl
      · rfl
    | cons c t =>
      rw [List.cons_append, if_neg fun h => not_startCode_append p l ht.tail h.2,
        List.getLast?_cons_cons, List.dropLast_cons_cons]
      split
      · rfl
      · rfl

/-! ## Streams of pieces -/

/-- Bytes without a start code and the pieces behind them, none of whose codes takes a zero from
what is before it. -/
def Fitting (t : List UInt8) : List Piece → Prop
  | [] => Codeless t
  | p :: ps => Codeless t ∧ (p.long = false → t.getLast? ≠ some 0) ∧ Fitting p.slice ps

variable {ps : List Piece}

theorem Fitting.codeless (h : Fitting t ps) : Codeless t := by
  cases ps with
  | nil => exact h
  | cons p ps => exact h.1

theorem Fitting.codeless_slices (h : Fitting t ps) : ∀ p ∈ ps, Codeless p.slice := by
  induction ps generalizing t with
  | nil => exact fun p hp => (List.not_mem_nil hp).elim
  | cons p ps ih => exact List.forall_mem_cons.mpr ⟨h.2.2.codeless, ih h.2.2⟩

theorem join_cons (t : List UInt8) (p : Piece) (ps : List Piece) :
    join t (p :: ps) = t ++ (p.code ++ join p.slice ps) := by
  simp only [join, Piece.text, List.flatMap_cons, List.append_assoc]

/-- Bytes that no start code begins in are alone. -/
theorem cut_codeless (h : Codeless t) : cut t = (t, []) := by
  induction t with
  | nil => rfl
  | cons b t ih =>
    have hrest : ¬(b = 0 ∧ startCode <+: t) := fun ht => h.tail ht.2.isInfix
    rw [cut_cons h.not_startCode hrest, ih h.tail]

/-- **The pieces of a stream are found again.** -/
theorem cut_join (h : Fitting t ps) : cut (join t ps) = (t, ps) := by
  induction ps generalizing t with
  | nil =>
    rw [join, List.flatMap_nil, List.append_nil]
    exact cut_codeless h
  | cons p ps ih =>
    rw [join_cons, cut_append p _ h.1, if_neg fun hp => h.2.1 hp.1 hp.2, ih h.2.2]

/-- Where the codes are found as they were written, the pieces are. -/
theorem cut_join_of_longs (ht : Codeless t) (hps : ∀ p ∈ ps, Codeless p.slice)
    (hlongs : (cut (join t ps)).2.map Piece.long = ps.map Piece.long) :
    cut (join t ps) = (t, ps) := by
  induction ps generalizing t with
  | nil =>
    rw [join, List.flatMap_nil, List.append_nil]
    exact cut_codeless ht
  | cons p ps ih =>
    obtain ⟨hp, hps⟩ := List.forall_mem_cons.mp hps
    rw [join_cons, cut_append p _ ht] at hlongs ⊢
    split at hlongs
    · rename_i hshort
      -- The code would have become a long one.
      have hhead := (List.cons.inj hlongs).1
      rw [hshort.1] at hhead
      cases hhead
    · rename_i hfit
      rw [if_neg hfit, ih hp hps (List.cons.inj hlongs).2]

theorem Fitting.cons (h : Fitting t ps) (hcode : ¬startCode <+: b :: join t ps)
    (hlong : ¬(b = 0 ∧ startCode <+: join t ps)) : Fitting (b :: t) ps := by
  have ht : Codeless (b :: t) := by
    refine codeless_cons.mpr ⟨fun hp => hcode ?_, h.codeless⟩
    exact hp.trans (List.prefix_append (b :: t) (ps.flatMap Piece.text))
  cases ps with
  | nil => exact ht
  | cons p ps =>
    refine ⟨ht, fun hshort => ?_, h.2.2⟩
    cases t with
    | nil =>
      intro hzero
      refine hlong ⟨Option.some.inj hzero, ?_⟩
      rw [join_cons, List.nil_append]
      exact (startCode_code_iff p _).mpr hshort
    | cons c t =>
      rw [List.getLast?_cons_cons]
      exact h.2.1 hshort

/-- **Every stream is cut into pieces that fit.** -/
theorem fitting_cut (l : List UInt8) :
    Fitting (cut l).1 (cut l).2 ∧ join (cut l).1 (cut l).2 = l := by
  induction h : l.length using Nat.strongRecOn generalizing l with
  | ind n ih =>
    subst h
    match l with
    | [] => exact ⟨codeless_nil, rfl⟩
    | b :: l =>
      by_cases hcode : startCode <+: b :: l
      · obtain ⟨rest, hrest⟩ := startCode_prefix_iff.mp hcode
        rw [hrest, cut_code]
        obtain ⟨hfit, hjoin⟩ := ih rest.length (by rw [hrest]; simp; omega) rest rfl
        refine ⟨⟨codeless_nil, fun _ => Option.some_ne_none _ ∘ Eq.symm, hfit⟩, ?_⟩
        rw [join_cons, hjoin]
        rfl
      by_cases hlong : b = 0 ∧ startCode <+: l
      · obtain ⟨rfl, hl⟩ := hlong
        obtain ⟨rest, rfl⟩ := startCode_prefix_iff.mp hl
        rw [cut_longCode]
        obtain ⟨hfit, hjoin⟩ := ih rest.length (by simp; omega) rest rfl
        refine ⟨⟨codeless_nil, fun hshort => Bool.noConfusion hshort, hfit⟩, ?_⟩
        rw [join_cons, hjoin]
        rfl
      · rw [cut_cons hcode hlong]
        obtain ⟨hfit, hjoin⟩ := ih l.length (Nat.lt_succ_self _) l rfl
        rw [← hjoin] at hcode hlong
        exact ⟨hfit.cons hcode hlong, congrArg (b :: ·) hjoin⟩

/-! ## Units

A unit ends with its last byte that is not zero; the zeros behind it are no part of it. -/

/-- The zeros at the end. -/
def zerosAtEnd (l : List UInt8) : Nat := (l.reverse.takeWhile fun b => b = 0).length

namespace Piece

/-- The zeros between the unit and what follows it. -/
def zeros (p : Piece) : Nat := zerosAtEnd p.slice

def unit (p : Piece) : List UInt8 := p.slice.take (p.slice.length - p.zeros)

end Piece

theorem zerosAtEnd_append (hb : b ≠ 0) (l : List UInt8) (k : Nat) :
    zerosAtEnd (l ++ b :: List.replicate k 0) = k := by
  rw [zerosAtEnd, List.reverse_append, List.reverse_cons, List.reverse_replicate,
    List.append_assoc, List.takeWhile_append_of_pos (by simp)]
  simp [hb]

/-- How a row of bytes ends. -/
theorem eq_replicate_or_append (l : List UInt8) :
    l = List.replicate l.length 0 ∨ ∃ front b k, b ≠ 0 ∧ l = front ++ b :: List.replicate k 0 := by
  induction l with
  | nil => exact .inl rfl
  | cons c l ih =>
    rcases ih with h | ⟨front, b, k, hb, h⟩
    · by_cases hc : c = 0
      · refine .inl ?_
        rw [List.length_cons, List.replicate_succ, hc, ← h]
      · exact .inr ⟨[], c, l.length, hc, by rw [← h]; rfl⟩
    · exact .inr ⟨c :: front, b, k, hb, by rw [h]; rfl⟩

theorem zerosAtEnd_replicate (k : Nat) : zerosAtEnd (List.replicate k 0) = k := by
  rw [zerosAtEnd, List.reverse_replicate]
  simp

theorem zerosAtEnd_lt (h : ∃ b ∈ l, b ≠ 0) : zerosAtEnd l < l.length := by
  rcases eq_replicate_or_append l with hl | ⟨front, b, k, hb, hl⟩
  · obtain ⟨b, hmem, hb⟩ := h
    rw [hl] at hmem
    exact absurd (List.eq_of_mem_replicate hmem) hb
  · rw [hl, zerosAtEnd_append hb]
    simp only [List.length_append, List.length_cons, List.length_replicate]
    omega

theorem getLast?_eq_zero_iff : l.getLast? = some 0 ↔ 0 < zerosAtEnd l := by
  rcases eq_replicate_or_append l with h | ⟨front, b, k, hb, h⟩
  · rw [h, zerosAtEnd_replicate]
    cases l.length with
    | zero => simp
    | succ n => simp [List.getLast?_replicate]
  · rw [h, zerosAtEnd_append hb]
    cases k with
    | zero => simp [hb]
    | succ k => simp [List.getLast?_append, List.getLast?_cons, List.getLast?_replicate]

end AnnexB
