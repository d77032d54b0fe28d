import XferRust.Lib.Records

/-! # Blocks with other bytes between them

A text holds blocks of `n` bytes, with bytes behind each that do not belong to it, as far as there
are enough bytes left.  A walk over it changes the blocks, with a state that goes from each to the
next, and nothing else: another walk that undoes every step gives the text back.
-/
namespace Interleaved

/-- How many bytes stand behind each block, and how many have to be left for one more. -/
structure Pattern (n : Nat) where
  skip : Nat
  least : Nat
  pos : 0 < n
  le_least : n ≤ least

variable {n : Nat} {σ : Type} (p : Pattern n)

/-- From the front of one block to the front of the next. -/
def Pattern.stride : Nat := n + p.skip

/-- The byte at `i` belongs to a block, in a text of `len` bytes. -/
def Pattern.Protects (len i : Nat) : Prop :=
  i % p.stride < n ∧ i / p.stride * p.stride + p.least ≤ len

/-- The text with its blocks changed. -/
def walk (step : σ → Octets n → Octets n × σ) (s : σ) (data : List UInt8) : List UInt8 :=
  if p.least ≤ data.length then
    let (block, s') := step s (.ofSlice n data)
    block.bytes ++ (data.drop n).take p.skip ++ walk step s' (data.drop (n + p.skip))
  else data
termination_by data.length
decreasing_by
  have hpos := p.pos
  have hle := p.le_least
  rw [List.length_drop]
  omega

section
variable {p} {step : σ → Octets n → Octets n × σ} {data : List UInt8}

theorem walk_short (s : σ) (h : ¬p.least ≤ data.length) : walk p step s data = data := by
  rw [walk, if_neg h]

theorem walk_long (s : σ) (h : p.least ≤ data.length) :
    walk p step s data = (step s (.ofSlice n data)).1.bytes ++ ((data.drop n).take p.skip ++
      walk p step (step s (.ofSlice n data)).2 (data.drop (n + p.skip))) := by
  rw [walk, if_pos h]
  exact List.append_assoc _ _ _

/-- One block less. -/
theorem length_drop_lt (p : Pattern n) (h : p.least ≤ data.length) :
    (data.drop (n + p.skip)).length < data.length := by
  have hpos := p.pos
  have hle := p.le_least
  rw [List.length_drop]
  omega

@[simp] theorem length_walk (step : σ → Octets n → Octets n × σ) (s : σ) (data : List UInt8) :
    (walk p step s data).length = data.length := by
  induction h : data.length using Nat.strongRecOn generalizing data s with
  | ind len ih =>
    subst h
    by_cases hlong : p.least ≤ data.length
    · have hle := p.le_least
      rw [walk_long s hlong, List.length_append, List.length_append, Octets.length_bytes,
        ih _ (length_drop_lt p hlong) _ _ rfl]
      simp only [List.length_take, List.length_drop]
      omega
    · rw [walk_short s hlong]

theorem ofSlice_bytes_take (h : n ≤ data.length) : (Octets.ofSlice n data).bytes = data.take n := by
  show (data ++ List.replicate n 0).take n = data.take n
  exact List.take_append_of_le_length h

/-- A block, what stands behind it, and the rest. -/
theorem split_block (h : n ≤ data.length) (skip : Nat) :
    data = (Octets.ofSlice n data).bytes ++
      ((data.drop n).take skip ++ data.drop (n + skip)) := by
  rw [ofSlice_bytes_take h, ← List.drop_drop, List.take_append_drop, List.take_append_drop]

/-- The first bytes, and others in the place of the rest. -/
theorem take_append_patch {l m : List UInt8} {k : Nat} (h : m.length = l.length - k) :
    (l.take k ++ m).take k = l.take k ∧ (l.take k ++ m).drop k = m := by
  by_cases hk : k ≤ l.length
  · have hlen : (l.take k).length = k := List.length_take_of_le hk
    exact ⟨List.take_left' hlen, List.drop_left' hlen⟩
  · obtain rfl : m = [] := List.eq_nil_of_length_eq_zero (by omega)
    rw [List.append_nil, List.take_take, Nat.min_self]
    exact ⟨rfl, List.drop_eq_nil_of_le (List.length_take_le _ _)⟩

/-- **A walk whose steps undo those of another undoes the walk.** -/
theorem walk_walk {undo : σ → Octets n → Octets n × σ}
    (h : ∀ s b, undo s (step s b).1 = (b, (step s b).2)) (s : σ) (data : List UInt8) :
    walk p undo s (walk p step s data) = data := by
  induction hlen : data.length using Nat.strongRecOn generalizing data s with
  | ind len ih =>
    subst hlen
    by_cases hlong : p.least ≤ data.length
    · have hle := p.le_least
      let out := step s (.ofSlice n data)
      let rest := walk p step out.2 (data.drop (n + p.skip))
      have hrest : rest.length = (data.drop n).length - p.skip := by
        rw [length_walk, ← List.drop_drop, List.length_drop]
      obtain ⟨htake, hdrop⟩ := take_append_patch hrest
      have hstep : walk p undo out.2 rest = data.drop (n + p.skip) :=
        ih _ (length_drop_lt p hlong) out.2 _ rfl
      have hlong' : p.least ≤ (walk p step s data).length := by
        rw [length_walk]
        exact hlong
      have hsplit : walk p step s data = out.1.bytes ++ ((data.drop n).take p.skip ++ rest) :=
        walk_long s hlong
      rw [walk_long s hlong', hsplit, Octets.ofSlice_append, h, ← List.drop_drop,
        List.drop_left' out.1.length_eq, htake, hdrop, hstep]
      exact (split_block (by omega) p.skip).symm
    · rw [walk_short s hlong, walk_short s hlong]

theorem Pattern.Protects.next {len i : Nat} (hi : p.stride ≤ i)
    (h : p.Protects (len - p.stride) (i - p.stride)) : p.Protects len i := by
  obtain ⟨j, rfl⟩ := Nat.exists_eq_add_of_le hi
  obtain ⟨hmod, hdiv⟩ := h
  have hle := p.le_least
  have hpos := p.pos
  have hstride : 0 < p.stride := Nat.lt_of_lt_of_le hpos (Nat.le_add_right _ _)
  rw [Nat.add_sub_cancel_left] at hmod hdiv
  refine ⟨?_, ?_⟩
  · rw [Nat.add_mod_left]
    exact hmod
  · rw [Nat.add_div_left _ hstride, Nat.succ_mul]
    omega

/-- **A walk leaves alone what stands between the blocks.** -/
theorem getElem?_walk (s : σ) {i : Nat} (h : ¬p.Protects data.length i) :
    (walk p step s data)[i]? = data[i]? := by
  induction hlen : data.length using Nat.strongRecOn generalizing data s i with
  | ind len ih =>
    subst hlen
    by_cases hlong : p.least ≤ data.length
    case neg => rw [walk_short s hlong]
    have hle := p.le_least
    have hbehind : n ≤ i := by
      refine Nat.le_of_not_lt fun hi => h ⟨?_, ?_⟩
      · exact Nat.lt_of_le_of_lt (Nat.mod_le _ _) hi
      · have hfirst : i < p.stride := Nat.lt_of_lt_of_le hi (Nat.le_add_right _ _)
        rw [Nat.div_eq_of_lt hfirst, Nat.zero_mul, Nat.zero_add]
        exact hlong
    have hpast (o : Octets n) (l : List UInt8) : (o.bytes ++ l)[i]? = l[i - n]? := by
      rw [List.getElem?_append_right (by rw [o.length_bytes]; exact hbehind), o.length_bytes]
    rw [walk_long s hlong, hpast]
    conv => rhs; rw [split_block (show n ≤ data.length by omega) p.skip, hpast]
    by_cases hmid : i - n < ((data.drop n).take p.skip).length
    · rw [List.getElem?_append_left hmid, List.getElem?_append_left hmid]
    · have hmid := Nat.le_of_not_lt hmid
      rw [List.getElem?_append_right hmid, List.getElem?_append_right hmid]
      rw [List.length_take, List.length_drop] at hmid ⊢
      by_cases hfull : p.skip ≤ data.length - n
      · have hstride : p.stride = n + p.skip := rfl
        rw [Nat.min_eq_left hfull] at hmid ⊢
        have hnext : i - n - p.skip = i - p.stride := by omega
        rw [hnext]
        refine ih _ (length_drop_lt p hlong) _ (fun hp => h ?_) rfl
        rw [List.length_drop] at hp
        exact Pattern.Protects.next (by omega) hp
      · have hnil : data.drop (n + p.skip) = [] := List.drop_eq_nil_of_le (by omega)
        have hpos := p.pos
        rw [hnil, walk_short _ (by rw [List.length_nil]; omega)]

end

end Interleaved
