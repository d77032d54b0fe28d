import XferRust.Lib.IsoBoxes
import XferRust.Playlist.Timeline

/-! # Walks over boxes

The walk over the boxes of the file adds with checks; the walk over the children of a box does
not, and adds the size that a child gives itself before it compares it with the end.  So a size
near 2^64 panics there, and nothing else does.  Where a walk does not panic, it is a fold over the
boxes that stand there.
-/
namespace XferRust.Playlist
open Guarded IsoBoxes

/-! ## Walks -/

/-- The type of a box. -/
def boxType (box : List UInt8) : List UInt8 := (box.drop 4).take 4

/-- Boxes with the places where they begin, from `p` on. -/
def withOffsets : Nat → List (List UInt8) → List (List UInt8 × Nat)
  | _, [] => []
  | p, c :: cs => (c, p) :: withOffsets (p + c.length) cs

/-- The size of the box that begins at a place reaches beyond 2^64. -/
def Wraps (p : Nat) (rest : List UInt8) : Prop :=
  match boxHead rest with
  | none => False
  | some (total, hdr) => hdr ≤ total ∧ 18446744073709551616 ≤ p + total

instance decidableWraps (p : Nat) (rest : List UInt8) : Decidable (Wraps p rest) :=
  match h : boxHead rest with
  | none => isFalse (by rw [Wraps, h]; exact id)
  | some (total, hdr) =>
    decidable_of_iff (hdr ≤ total ∧ 18446744073709551616 ≤ p + total) (by rw [Wraps, h])

/-- What the walk over the content of a box stops at is a box whose size wraps. -/
def WrapsIn (buf : List UInt8) : Prop :=
  Wraps (buf.length - (boxes (buf.drop 8)).2.length) (boxes (buf.drop 8)).2

instance decidableWrapsIn (buf : List UInt8) : Decidable (WrapsIn buf) :=
  inferInstanceAs (Decidable (Wraps _ _))

theorem mem_withOffsets {p : Nat} {cs : List (List UInt8)} {c : List UInt8 × Nat}
    (h : c ∈ withOffsets p cs) :
    c.1 ∈ cs ∧ p ≤ c.2 ∧ c.2 + c.1.length ≤ p + cs.flatten.length := by
  induction cs generalizing p with
  | nil => exact (List.not_mem_nil h).elim
  | cons d cs ih =>
    rw [List.flatten_cons, List.length_append]
    rcases List.mem_cons.mp h with rfl | h
    · have hend : p + d.length ≤ p + (d.length + cs.flatten.length) := by omega
      exact ⟨List.mem_cons_self, Nat.le_refl p, hend⟩
    · obtain ⟨hmem, hle, hend⟩ := ih h
      exact ⟨List.mem_cons_of_mem _ hmem, by omega, by omega⟩

variable {buf c child : List UInt8} {childOff : Nat}

theorem exists_mem_withOffsets {cs : List (List UInt8)} (h : c ∈ cs) (p : Nat) :
    ∃ o, (c, o) ∈ withOffsets p cs := by
  induction cs generalizing p with
  | nil => exact (List.not_mem_nil h).elim
  | cons d cs ih =>
    rcases List.mem_cons.mp h with rfl | h
    · exact ⟨p, List.mem_cons_self⟩
    · obtain ⟨o, ho⟩ := ih h (p + d.length)
      exact ⟨o, List.mem_cons_of_mem _ ho⟩

theorem addSize_ok {a b : Nat} (h : a + b < 18446744073709551616) : addSize a b = .ok (a + b) :=
  if_pos h

theorem be32_ok {b : List UInt8} (h : 4 ≤ b.length) :
    be32 b = .ok (BigEndian.toNat (b.take 4)) := by
  rw [be32, slice_ok (Nat.zero_le _) h]
  rfl

theorem be64_ok {b : List UInt8} (h : 8 ≤ b.length) :
    be64 b = .ok (BigEndian.toNat (b.take 8)) := by
  rw [be64, slice_ok (Nat.zero_le _) h]
  rfl

section
variable {σ : Type} {buf : List UInt8} {f : σ → List UInt8 → Nat → Guarded String σ}

/-- What a walk does behind the whole boxes. -/
def walkEnd (p : Nat) (rest : List UInt8) (s : σ) : Guarded String σ :=
  if Wraps p rest then .error .panic else .ok s

/-- What a walk does with the box whose head it has read. -/
def walkOn (buf : List UInt8) (f : σ → List UInt8 → Nat → Guarded String σ) (rounds p : Nat)
    (s : σ) : Option (Nat × Nat) → Guarded String σ
  | none => .ok s
  | some (total, hdr) =>
    if total < hdr then .ok s
    else do
      let next ← addSize p total
      if buf.length < next then .ok s
      else do
        let child ← slice buf p next
        let s ← f s child p
        walkChildren buf buf.length f rounds next s

theorem childHead_eq {p : Nat} (hp : p + 8 ≤ buf.length) (hbuf : buf.length ≤ maxBoxRead) :
    childHead buf buf.length p (BigEndian.toNat ((buf.drop p).take 4)) =
      .ok (boxHead (buf.drop p)) := by
  have hlen : (buf.drop p).length = buf.length - p := List.length_drop
  rw [maxBoxRead] at hbuf
  rw [childHead, boxHead, hlen, if_neg (show ¬buf.length - p < 8 by omega)]
  generalize BigEndian.toNat ((buf.drop p).take 4) = size
  by_cases hone : size = 1
  · rw [if_pos hone, addSize_ok (by omega)]
    dsimp only
    rw [if_pos hone]
    by_cases hext : buf.length < p + 16
    · rw [if_pos (show buf.length - p < 16 by omega)]
      exact if_pos hext
    · rw [if_neg (show ¬buf.length - p < 16 by omega), sliceFrom_ok (by omega)]
      have hrest : 8 ≤ (buf.drop (p + 8)).length := by
        rw [List.length_drop]
        omega
      refine (if_neg hext).trans ?_
      show (be64 (buf.drop (p + 8)) >>= _) = _
      rw [be64_ok hrest, List.drop_drop]
      rfl
  rw [if_neg hone]
  dsimp only
  rw [if_neg hone]
  by_cases hzero : size = 0
  · rw [if_pos hzero, if_pos hzero, sub_ok (by omega)]
    rfl
  · rw [if_neg hzero, if_neg hzero]

/-- One step of a walk. -/
theorem walkChildren_step {rounds p : Nat} {s : σ} (hp : p ≤ buf.length)
    (hbuf : buf.length ≤ maxBoxRead) :
    walkChildren buf buf.length f (rounds + 1) p s =
      walkOn buf f rounds p s (boxHead (buf.drop p)) := by
  have hlen : (buf.drop p).length = buf.length - p := List.length_drop
  have hmax : buf.length ≤ 8388608 := hbuf
  rw [walkChildren, addSize_ok (by omega)]
  by_cases hshort : buf.length < p + 8
  · rw [boxHead, if_pos (by omega)]
    exact if_pos hshort
  refine (if_neg hshort).trans ?_
  rw [sliceFrom_ok hp]
  show (be32 (buf.drop p) >>= _) = _
  rw [be32_ok (by omega)]
  show (childHead buf buf.length p _ >>= _) = _
  rw [childHead_eq (by omega) hbuf]
  rfl

/-- **A walk** goes over the whole boxes, and panics behind them where the size of the next one
wraps. -/
theorem walkChildren_eq {rounds p : Nat} {s : σ} (hp : p ≤ buf.length)
    (hbuf : buf.length ≤ maxBoxRead) (hrounds : buf.length - p < rounds) :
    walkChildren buf buf.length f rounds p s =
      (withOffsets p (boxes (buf.drop p)).1).foldlM (fun s c => f s c.1 c.2) s >>=
        walkEnd (buf.length - (boxes (buf.drop p)).2.length) (boxes (buf.drop p)).2 := by
  induction rounds generalizing p s with
  | zero => exact absurd hrounds (Nat.not_lt_zero _)
  | succ rounds ih =>
    have hlen : (buf.drop p).length = buf.length - p := List.length_drop
    have hmax : buf.length ≤ 8388608 := hbuf
    rw [walkChildren_step hp hbuf]
    -- Where no whole box begins, the walk ends.
    have hstop (hno : wholeBox (buf.drop p) = none) (hw : ¬Wraps p (buf.drop p)) :
        (.ok s : Guarded String σ) =
          (withOffsets p (boxes (buf.drop p)).1).foldlM (fun s c => f s c.1 c.2) s >>=
            walkEnd (buf.length - (boxes (buf.drop p)).2.length) (boxes (buf.drop p)).2 := by
      rw [boxes_none hno, hlen, Nat.sub_sub_self hp]
      exact (if_neg hw).symm
    cases hhead : boxHead (buf.drop p) with
    | none =>
      refine hstop (by rw [wholeBox, hhead]; rfl) ?_
      rw [Wraps, hhead]
      exact id
    | some head =>
      obtain ⟨total, hdr⟩ := head
      have hwhole : wholeBox (buf.drop p) =
          if hdr ≤ total ∧ total ≤ buf.length - p then some total else none := by
        rw [wholeBox, hhead, hlen]
        rfl
      have hwraps : Wraps p (buf.drop p) ↔ hdr ≤ total ∧ 18446744073709551616 ≤ p + total := by
        rw [Wraps, hhead]
      rw [walkOn]
      by_cases hsmall : total < hdr
      · rw [if_pos hsmall]
        exact hstop (by rw [hwhole, if_neg (by omega)]) (by rw [hwraps]; omega)
      rw [if_neg hsmall]
      by_cases hwrap : 18446744073709551616 ≤ p + total
      · rw [addSize, if_neg (by omega),
          boxes_none (show wholeBox (buf.drop p) = none by rw [hwhole, if_neg (by omega)]), hlen,
          Nat.sub_sub_self hp]
        exact (if_pos (hwraps.mpr ⟨by omega, hwrap⟩)).symm
      rw [addSize_ok (by omega)]
      show (if buf.length < p + total then _ else _) = _
      by_cases hlong : buf.length < p + total
      · rw [if_pos hlong]
        exact hstop (by rw [hwhole, if_neg (by omega)]) (by rw [hwraps]; omega)
      have hsome : wholeBox (buf.drop p) = some total := by
        rw [hwhole, if_pos (by omega)]
      have hpos := (wholeBox_eq_some hsome).1
      rw [if_neg hlong, slice_ok (by omega) (by omega), Nat.add_sub_cancel_left, boxes_some hsome,
        List.drop_drop, withOffsets, List.foldlM_cons, List.length_take, hlen,
        Nat.min_eq_left (by omega), bind_assoc]
      refine congrArg (f s ((buf.drop p).take total) p >>= ·) (funext fun s' => ?_)
      exact ih (by omega) (by omega)

theorem walkBox_eq (h8 : 8 ≤ buf.length) (hbuf : buf.length ≤ maxBoxRead) (s : σ) :
    walkBox buf f s =
      (withOffsets 8 (boxes (buf.drop 8)).1).foldlM (fun s c => f s c.1 c.2) s >>=
        walkEnd (buf.length - (boxes (buf.drop 8)).2.length) (boxes (buf.drop 8)).2 :=
  walkChildren_eq h8 hbuf (by omega)

theorem returns_walkEnd (p : Nat) (rest : List UInt8) (s : σ) :
    Returns (walkEnd p rest s) ↔ ¬Wraps p rest := by
  unfold walkEnd
  split
  · rename_i h
    exact iff_of_false (not_returns_error _) fun hn => hn h
  · rename_i h
    exact iff_of_true (returns_ok s) h

/-- A child stands in its box. -/
theorem child_bounds {c : List UInt8 × Nat} (h8 : 8 ≤ buf.length)
    (h : c ∈ withOffsets 8 (boxes (buf.drop 8)).1) :
    8 ≤ c.1.length ∧ c.2 + c.1.length ≤ buf.length := by
  obtain ⟨hmem, -, hend⟩ := mem_withOffsets h
  have hjoin := congrArg List.length (join_boxes (buf.drop 8))
  rw [List.length_append, List.length_drop] at hjoin
  exact ⟨eight_le_length hmem, by omega⟩

/-- **A walk returns** if every child is passed and no size wraps. -/
theorem returns_walkBox {R : List UInt8 → Prop} (h8 : 8 ≤ buf.length)
    (hbuf : buf.length ≤ maxBoxRead)
    (hf : ∀ s c o, 8 ≤ c.length → o + c.length ≤ buf.length → (Returns (f s c o) ↔ R c)) (s : σ) :
    Returns (walkBox buf f s) ↔ (∀ c ∈ (boxes (buf.drop 8)).1, R c) ∧ ¬WrapsIn buf := by
  have hchildren := returns_foldlM (R := fun c => R c.1) (fun s c hc =>
    hf s c.1 c.2 (child_bounds h8 hc).1 (child_bounds h8 hc).2) s
  have hall : (∀ c ∈ withOffsets 8 (boxes (buf.drop 8)).1, R c.1) ↔
      ∀ c ∈ (boxes (buf.drop 8)).1, R c := by
    constructor
    · intro h c hc
      obtain ⟨o, ho⟩ := exists_mem_withOffsets hc 8
      exact h (c, o) ho
    · exact fun h c hc => h c.1 (mem_withOffsets hc).1
  rw [walkBox_eq h8 hbuf, returns_bind, ← hall, ← hchildren]
  constructor
  · rintro ⟨t, ht, hend⟩
    exact ⟨⟨t, ht⟩, (returns_walkEnd _ _ t).mp hend⟩
  · rintro ⟨⟨t, ht⟩, hend⟩
    exact ⟨t, ht, (returns_walkEnd _ _ t).mpr hend⟩

end

/-! ## The closures -/

theorem slice_type (h : 8 ≤ c.length) :
    (slice c 4 8 : Guarded String (List UInt8)) = .ok (boxType c) := slice_ok (by decide) h

theorem sliceFrom_length {o n : Nat} (h : o + n ≤ c.length) : n ≤ (c.drop o).length := by
  rw [List.length_drop]
  omega

/-- How long the field of a time is. -/
def timeWidth (v1 : Bool) : Nat := if v1 then 8 else 4

theorem timeAt_ok {v1 : Bool} {rest : List UInt8} (h : timeWidth v1 ≤ rest.length) :
    timeAt v1 rest = .ok (BigEndian.toNat (rest.take (timeWidth v1))) := by
  cases v1 with
  | true => exact be64_ok h
  | false => exact be32_ok h

theorem isVersion1_eq (bytes : List UInt8) : isVersion1 bytes = .ok (decide (bytes[8]? = some 1)) := by
  unfold isVersion1
  split
  · rename_i h
    rw [index_ok (List.getElem?_eq_getElem h), List.getElem?_eq_getElem h]
    show Except.ok (decide (bytes[8] = 1)) = _
    rw [decide_eq_decide.mpr (Option.some.injEq bytes[8] 1).to_iff.symm]
  · rename_i h
    rw [List.getElem?_eq_none (by omega)]
    rfl

/-- Where the field behind the two times is. -/
def offBehindTimes (bytes : List UInt8) : Nat := if bytes[8]? = some 1 then 28 else 20

/-- What `behind_times` reads. -/
theorem behindTimes_eq (bytes : List UInt8) :
    behindTimes bytes = .ok (if offBehindTimes bytes + 4 ≤ bytes.length then
      some (BigEndian.toNat ((bytes.drop (offBehindTimes bytes)).take 4)) else none) := by
  have hoff : (if decide (bytes[8]? = some 1) then 12 + 16 else 12 + 8) = offBehindTimes bytes := by
    simp only [offBehindTimes, decide_eq_true_eq]
  rw [behindTimes, isVersion1_eq]
  show (if (if decide (bytes[8]? = some 1) then 12 + 16 else 12 + 8) + 4 ≤ bytes.length then _ else _) = _
  rw [hoff]
  split
  · rename_i h
    rw [sliceFrom_ok (by omega)]
    show (be32 _ >>= _) = _
    rw [be32_ok (sliceFrom_length h)]
    rfl
  · rfl

section
variable {σ : Type} {buf : List UInt8} {f : σ → List UInt8 → Nat → Guarded String σ}
  {g : σ → List UInt8 → Nat → σ}

/-- What a walk comes to when its closure is a plain function. -/
def walked (buf : List UInt8) (g : σ → List UInt8 → Nat → σ) (s : σ) : σ :=
  (withOffsets 8 (boxes (buf.drop 8)).1).foldl (fun s c => g s c.1 c.2) s

theorem walkBox_plain (h8 : 8 ≤ buf.length) (hbuf : buf.length ≤ maxBoxRead)
    (hf : ∀ s c o, c ∈ (boxes (buf.drop 8)).1 → 8 ≤ c.length → o + c.length ≤ buf.length →
      f s c o = .ok (g s c o)) (s : σ) :
    walkBox buf f s = if WrapsIn buf then .error .panic else .ok (walked buf g s) := by
  have hfold : ∀ (cs : List (List UInt8 × Nat)) (s : σ),
      (∀ c ∈ cs, ∀ s, f s c.1 c.2 = .ok (g s c.1 c.2)) →
        cs.foldlM (fun s c => f s c.1 c.2) s = .ok (cs.foldl (fun s c => g s c.1 c.2) s) := by
    intro cs
    induction cs with
    | nil => exact fun s _ => rfl
    | cons c cs ih =>
      intro s hcs
      obtain ⟨hc, hcs⟩ := List.forall_mem_cons.mp hcs
      rw [List.foldlM_cons, hc s]
      exact ih _ hcs
  rw [walkBox_eq h8 hbuf, hfold _ s fun c hc s => hf s c.1 c.2 (mem_withOffsets hc).1
    (child_bounds h8 hc).1 (child_bounds h8 hc).2]
  rfl

/-- What every child keeps, a walk keeps. -/
theorem walked_induct {I : σ → Prop} {s : σ} (h8 : 8 ≤ buf.length) (hs : I s)
    (hstep : ∀ s c o, 8 ≤ c.length → o + c.length ≤ buf.length → I s → I (g s c o)) :
    I (walked buf g s) := by
  have hfold : ∀ (cs : List (List UInt8 × Nat)) (s : σ),
      (∀ c ∈ cs, ∀ s, I s → I (g s c.1 c.2)) → I s → I (cs.foldl (fun s c => g s c.1 c.2) s) := by
    intro cs
    induction cs with
    | nil => exact fun s _ hs => hs
    | cons c cs ih =>
      intro s hcs hs
      obtain ⟨hc, hcs⟩ := List.forall_mem_cons.mp hcs
      exact ih _ hcs (hc s hs)
  exact hfold _ s (fun c hc s hs => hstep s c.1 c.2 (child_bounds h8 hc).1
    (child_bounds h8 hc).2 hs) hs

end

/-- What `trafChild` does. -/
def trafStep (trafOff : Nat) (s : Option Nat × List TfdtEntry) (child : List UInt8)
    (childOff : Nat) : Option Nat × List TfdtEntry :=
  if boxType child = tfhd then
    if 16 ≤ child.length then (some (BigEndian.toNat ((child.drop 12).take 4)), s.2) else s
  else if boxType child = tfdt then
    match s.1 with
    | none => s
    | some track =>
      let v1 := decide (child[8]? = some 1)
      if child.length < 16 ∨ v1 ∧ child.length < 20 then s
      else
        (s.1, s.2 ++ [{
          track
          off := trafOff + childOff + 12
          v1
          val := BigEndian.toNat ((child.drop 12).take (timeWidth v1)) }])
  else s

theorem trafChild_eq {trafOff : Nat} (s : Option Nat × List TfdtEntry) (h8 : 8 ≤ child.length)
    (hoff : trafOff + childOff + 12 < 18446744073709551616) :
    trafChild trafOff s child childOff = .ok (trafStep trafOff s child childOff) := by
  unfold trafChild trafStep
  rw [slice_type h8]
  show (if boxType child = tfhd then _ else _) = _
  by_cases hhd : boxType child = tfhd
  · rw [if_pos hhd, if_pos hhd]
    by_cases h16 : 16 ≤ child.length
    · rw [if_pos h16, if_pos h16, sliceFrom_ok (by omega)]
      show (be32 _ >>= _) = _
      rw [be32_ok (sliceFrom_length (by omega))]
      rfl
    · rw [if_neg h16, if_neg h16]
  rw [if_neg hhd, if_neg hhd]
  by_cases hdt : boxType child = tfdt
  case neg => rw [if_neg hdt, if_neg hdt]
  rw [if_pos hdt, if_pos hdt]
  obtain ⟨tid, out⟩ := s
  cases tid with
  | none => rfl
  | some track =>
    dsimp only
    by_cases h16 : child.length < 16
    · rw [if_pos h16, if_pos (.inl h16)]
    have hversion : child[8]? = some child[8] := List.getElem?_eq_getElem (by omega)
    rw [if_neg h16, index_ok hversion, hversion]
    simp only [Option.some.injEq]
    show (if decide (child[8] = 1) = true ∧ child.length < 20 then _ else _) = _
    by_cases h20 : decide (child[8] = 1) = true ∧ child.length < 20
    · rw [if_pos h20, if_pos (.inr h20)]
    have hwidth : timeWidth (decide (child[8] = 1)) ≤ (child.drop 12).length := by
      rw [List.length_drop, timeWidth]
      split
      · rename_i hv
        have : ¬child.length < 20 := fun h => h20 ⟨hv, h⟩
        omega
      · omega
    rw [if_neg h20, if_neg fun h => h.elim h16 h20, sliceFrom_ok (by omega)]
    show (timeAt _ (child.drop 12) >>= _) = _
    rw [timeAt_ok hwidth]
    show (addSize trafOff childOff >>= _) = _
    rw [addSize_ok (by omega)]
    show (addSize (trafOff + childOff) 12 >>= _) = _
    rw [addSize_ok (by omega)]
    rfl

/-- What `moofChild` does. -/
def moofStep (out : List TfdtEntry) (child : List UInt8) (childOff : Nat) : List TfdtEntry :=
  if boxType child = traf then (walked child (trafStep childOff) (none, out)).2 else out

theorem moofChild_eq (out : List TfdtEntry) (h8 : 8 ≤ child.length)
    (hoff : childOff + child.length ≤ maxBoxRead) (hfits : boxType child = traf → ¬WrapsIn child) :
    moofChild out child childOff = .ok (moofStep out child childOff) := by
  have hmax : childOff + child.length ≤ 8388608 := hoff
  unfold moofChild moofStep
  rw [slice_type h8]
  show (if boxType child = traf then _ else _) = _
  by_cases htraf : boxType child = traf
  · rw [if_pos htraf, if_pos htraf,
      walkBox_plain h8 (by omega) fun s c o _ hc ho => trafChild_eq s hc (by omega),
      if_neg (hfits htraf)]
    rfl
  · rw [if_neg htraf, if_neg htraf]

theorem returns_moofChild (out : List TfdtEntry) (h8 : 8 ≤ child.length)
    (hoff : childOff + child.length ≤ maxBoxRead) :
    Returns (moofChild out child childOff) ↔ (boxType child = traf → ¬WrapsIn child) := by
  by_cases hfits : boxType child = traf → ¬WrapsIn child
  · exact iff_of_true ⟨_, moofChild_eq out h8 hoff hfits⟩ hfits
  · have hmax : childOff + child.length ≤ 8388608 := hoff
    refine iff_of_false ?_ hfits
    obtain ⟨htraf, hwraps⟩ := Classical.not_imp.mp hfits
    unfold moofChild
    rw [slice_type h8]
    show ¬Returns (if boxType child = traf then _ else _)
    rw [if_pos htraf, walkBox_plain h8 (by omega) fun s c o _ hc ho => trafChild_eq s hc (by omega),
      if_pos (Classical.not_not.mp hwraps)]
    exact not_returns_error _

/-- No walk over a `moof` comes to a size that wraps. -/
structure MoofFits (buf : List UInt8) : Prop where
  self : ¬WrapsIn buf
  trafs : ∀ c ∈ (boxes (buf.drop 8)).1, boxType c = traf → ¬WrapsIn c

theorem returns_tfdtEntries (h8 : 8 ≤ buf.length) (hbuf : buf.length ≤ maxBoxRead) :
    Returns (tfdtEntries buf) ↔ MoofFits buf := by
  have hwalk := @returns_walkBox _ buf moofChild _ h8 hbuf
    (fun s c o hc ho => returns_moofChild s hc (Nat.le_trans ho hbuf)) []
  rw [tfdtEntries, hwalk]
  exact ⟨fun h => ⟨h.2, h.1⟩, fun h => ⟨h.trafs, h.self⟩⟩

theorem tfdtEntries_eq (h8 : 8 ≤ buf.length) (hbuf : buf.length ≤ maxBoxRead)
    (hfits : MoofFits buf) : tfdtEntries buf = .ok (walked buf moofStep []) := by
  have hwalk := @walkBox_plain _ buf moofChild moofStep h8 hbuf
    (fun s c o hmem hc ho => moofChild_eq s hc (Nat.le_trans ho hbuf) (hfits.trafs c hmem)) []
  rw [tfdtEntries, hwalk, if_neg hfits.self]

/-- The times that are found are in the box. -/
theorem entry_bounds (h8 : 8 ≤ buf.length) :
    ∀ e ∈ walked buf moofStep [], e.off + timeWidth e.v1 ≤ buf.length := by
  refine @walked_induct _ buf moofStep (fun out => ∀ e ∈ out, e.off + timeWidth e.v1 ≤ buf.length)
    [] h8 (fun e he => (List.not_mem_nil he).elim) fun out c o hc ho hout => ?_
  unfold moofStep
  split
  · refine @walked_induct _ c (trafStep o)
      (fun s => ∀ e ∈ s.2, e.off + timeWidth e.v1 ≤ buf.length) (none, out) hc hout
      fun s d p hd hp hs => ?_
    unfold trafStep
    split
    · split
      · exact hs
      · exact hs
    split
    · split
      · exact hs
      · dsimp only
        split
        · exact hs
        · rename_i hlong
          intro e he
          rcases List.mem_append.mp he with he | he
          · exact hs e he
          · obtain rfl := List.mem_singleton.mp he
            show o + p + 12 + timeWidth (decide (d[8]? = some 1)) ≤ buf.length
            unfold timeWidth
            split
            · rename_i hv
              have : ¬d.length < 20 := fun h => hlong (.inr ⟨hv, h⟩)
              omega
            · omega
    · exact hs
  · exact hout

/-! ### The tracks -/

/-- The value that `behind_times` reads. -/
def valueBehindTimes (c : List UInt8) : Option Nat :=
  if offBehindTimes c + 4 ≤ c.length then
    some (BigEndian.toNat ((c.drop (offBehindTimes c)).take 4))
  else none

/-- What `mdiaChild` does. -/
def mdiaStep (ts : Option Nat) (child : List UInt8) (_ : Nat) : Option Nat :=
  if boxType child = mdhd then (valueBehindTimes child).or ts else ts

theorem mdiaChild_eq (ts : Option Nat) (h8 : 8 ≤ child.length) :
    mdiaChild ts child childOff = .ok (mdiaStep ts child childOff) := by
  unfold mdiaChild mdiaStep
  rw [slice_type h8]
  show (if boxType child = mdhd then _ else _) = _
  by_cases hmdhd : boxType child = mdhd
  · rw [if_pos hmdhd, if_pos hmdhd, behindTimes_eq]
    rfl
  · rw [if_neg hmdhd, if_neg hmdhd]

/-- What `trakChild` does. -/
def trakStep (s : Option Nat × Option Nat) (child : List UInt8) (_ : Nat) :
    Option Nat × Option Nat :=
  if boxType child = tkhd then ((valueBehindTimes child).or s.1, s.2)
  else if boxType child = mdia then (s.1, walked child mdiaStep s.2)
  else s

theorem trakChild_eq (s : Option Nat × Option Nat) (h8 : 8 ≤ child.length)
    (hmax : child.length ≤ maxBoxRead) :
    trakChild s child childOff = if boxType child = mdia ∧ WrapsIn child then .error .panic
      else .ok (trakStep s child childOff) := by
  unfold trakChild trakStep
  rw [slice_type h8]
  show (if boxType child = tkhd then _ else _) = _
  by_cases htkhd : boxType child = tkhd
  · have hno : ¬(boxType child = mdia ∧ WrapsIn child) := fun h =>
      absurd (htkhd.symm.trans h.1) (by decide)
    rw [if_pos htkhd, if_pos htkhd, if_neg hno, behindTimes_eq]
    rfl
  rw [if_neg htkhd, if_neg htkhd]
  by_cases hmdia : boxType child = mdia
  · rw [if_pos hmdia, if_pos hmdia, walkBox_plain h8 hmax fun s c o _ hc _ => mdiaChild_eq s hc]
    by_cases hwraps : WrapsIn child
    · rw [if_pos hwraps, if_pos ⟨hmdia, hwraps⟩]
      rfl
    · rw [if_neg hwraps, if_neg fun h => hwraps h.2]
      rfl
  · rw [if_neg hmdia, if_neg hmdia, if_neg fun h => hmdia h.1]

/-- No walk over a `trak` comes to a size that wraps. -/
structure TrakFits (buf : List UInt8) : Prop where
  self : ¬WrapsIn buf
  mdias : ∀ c ∈ (boxes (buf.drop 8)).1, boxType c = mdia → ¬WrapsIn c

theorem returns_walkTrak (h8 : 8 ≤ buf.length) (hbuf : buf.length ≤ maxBoxRead)
    (s : Option Nat × Option Nat) : Returns (walkBox buf trakChild s) ↔ TrakFits buf := by
  have hchild : ∀ (s : Option Nat × Option Nat) c o, 8 ≤ c.length → o + c.length ≤ buf.length →
      (Returns (trakChild s c o) ↔ (boxType c = mdia → ¬WrapsIn c)) := by
    intro s c o hc ho
    rw [trakChild_eq s hc (by omega)]
    split
    · rename_i h
      exact iff_of_false (not_returns_error _) fun hn => hn h.1 h.2
    · rename_i h
      exact iff_of_true (returns_ok _) fun hm hw => h ⟨hm, hw⟩
  rw [returns_walkBox h8 hbuf hchild]
  exact ⟨fun h => ⟨h.2, h.1⟩, fun h => ⟨h.mdias, h.self⟩⟩

/-- No walk over a `moov` comes to a size that wraps. -/
structure MoovFits (buf : List UInt8) : Prop where
  self : ¬WrapsIn buf
  traks : ∀ c ∈ (boxes (buf.drop 8)).1, boxType c = trak → TrakFits c

theorem returns_moovChild (out : TrackMap Nat) (h8 : 8 ≤ child.length)
    (hmax : child.length ≤ maxBoxRead) :
    Returns (moovChild out child childOff) ↔ (boxType child = trak → TrakFits child) := by
  unfold moovChild
  rw [slice_type h8]
  show Returns (if boxType child = trak then _ else _) ↔ _
  by_cases htrak : boxType child = trak
  · rw [if_pos htrak, returns_bind]
    constructor
    · rintro ⟨s, hs, -⟩ _
      exact (returns_walkTrak h8 hmax _).mp ⟨s, hs⟩
    · intro h
      obtain ⟨s, hs⟩ := (returns_walkTrak h8 hmax (none, none)).mpr (h htrak)
      refine ⟨s, hs, ?_⟩
      match s with
      | (some tid, some ts) => exact returns_ok _
      | (some tid, none) => exact returns_ok _
      | (none, ts) => exact returns_ok _
  · rw [if_neg htrak]
    exact iff_of_true (returns_ok _) fun h => absurd h htrak

theorem returns_parseMoovTracks (h8 : 8 ≤ buf.length) (hbuf : buf.length ≤ maxBoxRead)
    (out : TrackMap Nat) : Returns (parseMoovTracks buf out) ↔ MoovFits buf := by
  have hwalk := @returns_walkBox _ buf moovChild _ h8 hbuf
    (fun s c o hc ho => returns_moovChild s hc (by omega)) out
  rw [parseMoovTracks, hwalk]
  exact ⟨fun h => ⟨h.2, h.1⟩, fun h => ⟨h.traks, h.self⟩⟩

/-! ## The file -/

section
variable {file : List UInt8} {off : Nat}

theorem readExact_eq {n : Nat} :
    readExact file off n =
      if n ≤ (file.drop off).length then some ((file.drop off).take n) else none := by
  have hlen : ((file.drop off).take n).length = n ↔ n ≤ (file.drop off).length := by
    rw [List.length_take]
    omega
  unfold readExact
  dsimp only
  by_cases h : n ≤ (file.drop off).length
  · rw [if_pos h, if_pos (hlen.mpr h)]
  · rw [if_neg h, if_neg fun hn => h (hlen.mp hn)]

theorem boxSize_eq (h8 : 8 ≤ (file.drop off).length) (hoff : off ≤ file.length) :
    boxSize file off file.length (BigEndian.toNat ((file.drop off).take 4)) =
      boxHead (file.drop off) := by
  have hlen : (file.drop off).length = file.length - off := List.length_drop
  rw [boxSize, boxHead, if_neg (show ¬(file.drop off).length < 8 by omega)]
  generalize BigEndian.toNat ((file.drop off).take 4) = size
  dsimp only
  by_cases hone : size = 1
  · rw [if_pos hone, if_pos hone, readExact_eq, ← List.drop_drop, List.length_drop]
    by_cases hext : (file.drop off).length < 16
    · rw [if_pos hext, if_neg (by omega)]
      rfl
    · rw [if_neg hext, if_pos (by omega)]
      rfl
  rw [if_neg hone, if_neg hone]
  by_cases hzero : size = 0
  · rw [if_pos hzero, if_pos hzero, if_neg (by omega), hlen]
  · rw [if_neg hzero, if_neg hzero]

/-- `next_box` finds the whole box that the rest of the file begins with. -/
theorem nextBox_eq (hoff : off ≤ file.length) (hfile : file.length < 18446744073709551616) :
    nextBox file off file.length = (wholeBox (file.drop off)).map fun total =>
      { off, size := total, typ := boxType (file.drop off) } := by
  have hlen : (file.drop off).length = file.length - off := List.length_drop
  unfold nextBox
  by_cases h8 : (file.drop off).length < 8
  · have hnone : wholeBox (file.drop off) = none := by
      rw [wholeBox, boxHead, if_pos h8]
      rfl
    rw [hnone]
    cases hfront : checkedAdd off 8 with
    | none => rfl
    | some front =>
      unfold checkedAdd at hfront
      split at hfront
      · obtain rfl := Option.some.inj hfront
        exact if_pos (by omega)
      · cases hfront
  have hfront : checkedAdd off 8 = some (off + 8) := if_pos (by omega)
  rw [hfront]
  refine (if_neg (show ¬file.length < off + 8 by omega)).trans ?_
  rw [readExact_eq, if_pos (by omega)]
  show (boxSize file off file.length _ >>= _) = _
  rw [List.take_take, Nat.min_eq_left (by decide), boxSize_eq (by omega) hoff, wholeBox]
  cases boxHead (file.drop off) with
  | none => rfl
  | some head =>
    obtain ⟨total, hdr⟩ := head
    show (if total < hdr then _ else _) = Option.map _ (if hdr ≤ total ∧ _ then _ else _)
    by_cases hsmall : total < hdr
    · rw [if_pos hsmall, if_neg fun h => absurd h.1 (Nat.not_le.mpr hsmall)]
      rfl
    rw [if_neg hsmall]
    by_cases hfit : total ≤ (file.drop off).length
    · have hnext : checkedAdd off total = some (off + total) := if_pos (by omega)
      rw [if_pos ⟨Nat.not_lt.mp hsmall, hfit⟩, hnext]
      refine (if_neg (show ¬file.length < off + total by omega)).trans ?_
      rw [boxType, List.drop_take]
      rfl
    · rw [if_neg fun h => hfit h.2]
      cases hnext : checkedAdd off total with
      | none => rfl
      | some next =>
        unfold checkedAdd at hnext
        split at hnext
        · obtain rfl := Option.some.inj hnext
          exact if_pos (by omega)
        · cases hnext

/-- A box of the file as the passes over it know it. -/
def boxAt (c : List UInt8 × Nat) : BoxAt := { off := c.2, size := c.1.length, typ := boxType c.1 }

/-- What is left of the file is its next box and the rest. -/
theorem boxType_take {rest : List UInt8} {total : Nat} (h : 8 ≤ total) :
    boxType (rest.take total) = boxType rest := by
  rw [boxType, boxType, List.drop_take, List.take_take, Nat.min_eq_left (by omega)]

theorem scanLoop_eq {rounds : Nat} {s : Scan} (hoff : off ≤ file.length)
    (hfile : file.length < 18446744073709551616) (hrounds : file.length - off < rounds) :
    scanLoop file file.length rounds off s =
      (withOffsets off (boxes (file.drop off)).1).foldlM (fun s c => scanBox file (boxAt c) s) s := by
  induction rounds generalizing off s with
  | zero => exact absurd hrounds (Nat.not_lt_zero _)
  | succ rounds ih =>
    have hlen : (file.drop off).length = file.length - off := List.length_drop
    rw [scanLoop, nextBox_eq hoff hfile]
    cases hbox : wholeBox (file.drop off) with
    | none =>
      rw [boxes_none hbox]
      rfl
    | some total =>
      obtain ⟨hpos, hle⟩ := wholeBox_eq_some hbox
      rw [boxes_some hbox, withOffsets, List.foldlM_cons, List.length_take, List.drop_drop,
        Nat.min_eq_left hle]
      have hat : boxAt ((file.drop off).take total, off) =
          { off, size := total, typ := boxType (file.drop off) } := by
        rw [boxAt, boxType_take hpos, List.length_take, Nat.min_eq_left hle]
      rw [hat]
      refine congrArg (scanBox file _ s >>= ·) (funext fun s' => ?_)
      show (addSize off total >>= _) = _
      rw [addSize_ok (by omega)]
      exact ih (by omega) (by omega)

end

end XferRust.Playlist
