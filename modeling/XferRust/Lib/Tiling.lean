/-! # Spans and tilings

Half-open spans of natural numbers.  `cover spans b` counts the spans that contain `b`, and
`spans` tile `[lo, hi)` when every number of the range lies in exactly one of them and no other
number lies in any; the order of the spans and empty spans do not matter.  A `Chain` is a
tiling by nonempty spans in ascending order; `Chain.tiles` and `Tiles.chain` pass between the
two.  The update lemmas say what replacing one element of a list does to a sum over it.
-/
namespace Tiling

/-! ## Sums over a list -/

section Sums
variable {α : Type} (f : α → Nat)

/-- The sum of `f` over a list. -/
def total : List α → Nat
  | [] => 0
  | x :: xs => f x + total xs

@[simp] theorem total_nil : total f [] = 0 := rfl

@[simp] theorem total_cons (x : α) (xs : List α) : total f (x :: xs) = f x + total f xs := rfl

@[simp] theorem total_append (xs ys : List α) :
    total f (xs ++ ys) = total f xs + total f ys := by
  induction xs with
  | nil => exact (Nat.zero_add _).symm
  | cons x xs ih =>
    rw [List.cons_append, total_cons, total_cons, ih]
    exact (Nat.add_assoc _ _ _).symm

theorem total_map {β : Type} (g : β → α) (xs : List β) :
    total f (xs.map g) = total (fun x => f (g x)) xs := by
  induction xs with
  | nil => rfl
  | cons x xs ih => rw [List.map_cons, total_cons, total_cons, ih]

variable {f}

variable {xs : List α}

/-- Replacing one element changes the sum by the difference. -/
theorem total_set {i : Nat} {x : α} (h : xs[i]? = some x) (y : α) :
    total f (xs.set i y) + f x = total f xs + f y := by
  induction xs generalizing i with
  | nil => cases h
  | cons z zs ih =>
    cases i with
    | zero =>
      obtain rfl := Option.some.inj h
      simp only [List.set_cons_zero, total_cons]
      omega
    | succ i =>
      have := ih h
      simp only [List.set_cons_succ, total_cons]
      omega

theorem le_total {x : α} (h : x ∈ xs) : f x ≤ total f xs := by
  induction xs with
  | nil => cases h
  | cons z zs ih =>
    rw [total_cons]
    rcases List.mem_cons.mp h with rfl | h
    · omega
    · have := ih h
      omega

theorem total_eq_zero : total f xs = 0 ↔ ∀ x ∈ xs, f x = 0 := by
  induction xs with
  | nil => simp
  | cons z zs ih =>
    rw [total_cons, Nat.add_eq_zero_iff, ih, List.forall_mem_cons]

variable {g : α → Nat}

theorem total_le (h : ∀ x ∈ xs, f x ≤ g x) : total f xs ≤ total g xs := by
  induction xs with
  | nil => exact Nat.le_refl 0
  | cons x xs ih =>
    obtain ⟨hx, hxs⟩ := List.forall_mem_cons.mp h
    rw [total_cons, total_cons]
    exact Nat.add_le_add hx (ih hxs)

/-- One strict inequality among weak ones makes the sums differ. -/
theorem total_lt (hle : ∀ x ∈ xs, f x ≤ g x) {x : α} (hx : x ∈ xs) (hlt : f x < g x) :
    total f xs < total g xs := by
  induction xs with
  | nil => cases hx
  | cons y ys ih =>
    obtain ⟨hy, hys⟩ := List.forall_mem_cons.mp hle
    have hrest := total_le hys
    rw [total_cons, total_cons]
    rcases List.mem_cons.mp hx with rfl | hx
    · omega
    · have := ih hys hx
      omega

/-- Elements that count for nothing may be left out. -/
theorem total_filter {p : α → Bool} (h : ∀ x ∈ xs, p x = false → f x = 0) :
    total f (xs.filter p) = total f xs := by
  induction xs with
  | nil => rfl
  | cons x xs ih =>
    obtain ⟨hx, hxs⟩ := List.forall_mem_cons.mp h
    rw [total_cons]
    by_cases hp : p x = true
    · rw [List.filter_cons_of_pos hp, total_cons, ih hxs]
    · rw [List.filter_cons_of_neg hp, ih hxs, hx (by simpa using hp), Nat.zero_add]

/-- The sum of differences that do not stop at zero. -/
theorem total_sub (h : ∀ x ∈ xs, g x ≤ f x) :
    total (fun x => f x - g x) xs + total g xs = total f xs := by
  induction xs with
  | nil => rfl
  | cons x xs ih =>
    obtain ⟨hx, hxs⟩ := List.forall_mem_cons.mp h
    have := ih hxs
    simp only [total_cons]
    omega

theorem total_perm {ys : List α} (h : xs.Perm ys) : total f xs = total f ys := by
  induction h with
  | nil => rfl
  | cons x _ ih => rw [total_cons, total_cons, ih]
  | swap x y xs =>
    simp only [total_cons]
    omega
  | trans _ _ ih ih' => exact ih.trans ih'

theorem total_congr (h : ∀ x ∈ xs, f x = g x) : total f xs = total g xs := by
  induction xs with
  | nil => rfl
  | cons x xs ih =>
    obtain ⟨hx, hxs⟩ := List.forall_mem_cons.mp h
    rw [total_cons, total_cons, hx, ih hxs]

end Sums

/-! ## Spans -/

/-- The numbers from `lo` up to but not including `hi`. -/
structure Span where
  lo : Nat
  hi : Nat

/-- 1 for a number of the span, 0 for any other. -/
def Span.hits (s : Span) (b : Nat) : Nat := if s.lo ≤ b ∧ b < s.hi then 1 else 0

variable {b : Nat} {s : Span}

theorem Span.hits_of_mem (h : s.lo ≤ b ∧ b < s.hi) : s.hits b = 1 := if_pos h

theorem Span.hits_of_not_mem (h : ¬ (s.lo ≤ b ∧ b < s.hi)) : s.hits b = 0 :=
  if_neg h

theorem Span.hits_pos : 0 < s.hits b ↔ s.lo ≤ b ∧ b < s.hi := by
  unfold hits
  split
  · simp_all
  · simp_all

variable {hi lo : Nat}

/-- Cutting a span loses no number and doubles none. -/
theorem hits_cut {mid : Nat} (h₁ : lo ≤ mid) (h₂ : mid ≤ hi) (b : Nat) :
    (Span.mk lo hi).hits b = (Span.mk lo mid).hits b + (Span.mk mid hi).hits b := by
  by_cases hlo : lo ≤ b
  · by_cases hmid : b < mid
    · rw [Span.hits_of_mem ⟨hlo, by dsimp only; omega⟩, Span.hits_of_mem ⟨hlo, hmid⟩,
        Span.hits_of_not_mem fun h => absurd h.1 (by dsimp only; omega)]
    · by_cases hhi : b < hi
      · rw [Span.hits_of_mem ⟨hlo, hhi⟩, Span.hits_of_not_mem fun h => hmid h.2,
          Span.hits_of_mem ⟨by dsimp only; omega, hhi⟩]
      · rw [Span.hits_of_not_mem fun h => hhi h.2, Span.hits_of_not_mem fun h => hmid h.2,
          Span.hits_of_not_mem fun h => hhi h.2]
  · rw [Span.hits_of_not_mem fun h => hlo h.1, Span.hits_of_not_mem fun h => hlo h.1,
      Span.hits_of_not_mem fun h => absurd h.1 (by dsimp only; omega)]

/-- How many of the spans contain a number. -/
def cover (spans : List Span) (b : Nat) : Nat := total (Span.hits · b) spans

@[simp] theorem cover_nil (b : Nat) : cover [] b = 0 := rfl

@[simp] theorem cover_cons (s : Span) (spans : List Span) (b : Nat) :
    cover (s :: spans) b = s.hits b + cover spans b := total_cons _ _ _

theorem cover_map {α : Type} (f : α → Span) (xs : List α) (b : Nat) :
    cover (xs.map f) b = total (fun x => (f x).hits b) xs := total_map _ f xs

@[simp] theorem cover_append (xs ys : List Span) (b : Nat) :
    cover (xs ++ ys) b = cover xs b + cover ys b := total_append _ _ _

/-- Some span contains the number. -/
def Holds (spans : List Span) (b : Nat) : Prop := ∃ s ∈ spans, s.lo ≤ b ∧ b < s.hi

theorem holds_append {xs ys : List Span} : Holds (xs ++ ys) b ↔ Holds xs b ∨ Holds ys b := by
  simp only [Holds, List.mem_append, or_and_right, exists_or]

theorem holds_singleton : Holds [s] b ↔ s.lo ≤ b ∧ b < s.hi := by
  simp only [Holds, List.mem_singleton, exists_eq_left]

/-- The spans up to `len`. -/
def clip (len : Nat) (spans : List Span) : List Span := spans.map fun s => ⟨s.lo, min s.hi len⟩

variable {spans : List Span}

theorem holds_clip {len : Nat} : Holds (clip len spans) b ↔ Holds spans b ∧ b < len := by
  constructor
  · rintro ⟨s, hs, hlo, hhi⟩
    obtain ⟨t, ht, rfl⟩ := List.mem_map.mp hs
    dsimp only at hlo hhi
    exact ⟨⟨t, ht, hlo, by omega⟩, by omega⟩
  · rintro ⟨⟨t, ht, hlo, hhi⟩, hlen⟩
    exact ⟨_, List.mem_map_of_mem ht, hlo, by dsimp only; omega⟩

theorem cover_pos : 0 < cover spans b ↔ Holds spans b := by
  constructor
  · intro h
    refine Classical.byContradiction fun hn => ?_
    have : cover spans b = 0 := total_eq_zero.mpr fun s hs =>
      Span.hits_of_not_mem fun hb => hn ⟨s, hs, hb⟩
    omega
  · rintro ⟨s, hs, hb⟩
    have := le_total (f := (Span.hits · b)) hs
    rw [Span.hits_of_mem hb] at this
    exact this

/-! ## Tilings -/

/-- Every number of `[lo, hi)` lies in exactly one of the spans, every other one in none. -/
def Tiles (lo hi : Nat) (spans : List Span) : Prop :=
  ∀ b, cover spans b = (Span.mk lo hi).hits b

/-- Spans each of which ends before the next one starts cover a number once at most. -/
theorem cover_le_one (h : spans.Pairwise fun s t => s.hi ≤ t.lo) (b : Nat) : cover spans b ≤ 1 := by
  induction spans with
  | nil => exact Nat.zero_le 1
  | cons s spans ih =>
    obtain ⟨hfirst, hrest⟩ := List.pairwise_cons.mp h
    rw [cover_cons]
    by_cases hb : s.lo ≤ b ∧ b < s.hi
    · have hzero : cover spans b = 0 := total_eq_zero.mpr fun t ht =>
        Span.hits_of_not_mem fun hb' => by
          have := hfirst t ht
          omega
      exact Nat.le_of_eq (by rw [hzero, Span.hits_of_mem hb])
    · rw [Span.hits_of_not_mem hb, Nat.zero_add]
      exact ih hrest

/-- **Disjoint spans that hold just the numbers of a range** tile it; some may be empty. -/
theorem tiles_of_pairwise (h : spans.Pairwise fun s t => s.hi ≤ t.lo)
    (hholds : ∀ b, Holds spans b ↔ lo ≤ b ∧ b < hi) : Tiles lo hi spans := by
  intro b
  have hle := cover_le_one h b
  have hpos := cover_pos.trans (hholds b)
  by_cases hb : lo ≤ b ∧ b < hi
  · rw [Span.hits_of_mem hb]
    have := hpos.mpr hb
    omega
  · rw [Span.hits_of_not_mem hb]
    exact Nat.eq_zero_of_not_pos fun h => hb (hpos.mp h)

/-- Nonempty spans that follow each other from `lo` to `hi`. -/
def Chain : Nat → Nat → List Span → Prop
  | lo, hi, [] => lo = hi
  | lo, hi, s :: spans => s.lo = lo ∧ s.lo < s.hi ∧ Chain s.hi hi spans

theorem Chain.le (h : Chain lo hi spans) : lo ≤ hi := by
  induction spans generalizing lo with
  | nil => exact Nat.le_of_eq h
  | cons s spans ih =>
    have := ih h.2.2
    have := h.1
    have := h.2.1
    omega

theorem Chain.tiles (h : Chain lo hi spans) : Tiles lo hi spans := by
  intro b
  induction spans generalizing lo with
  | nil =>
    obtain rfl : lo = hi := h
    rw [cover_nil, Span.hits_of_not_mem fun hb => by dsimp only at hb; omega]
  | cons s spans ih =>
    obtain ⟨rfl, hlt, hrest⟩ := h
    rw [cover_cons, ih hrest]
    exact (hits_cut (Nat.le_of_lt hlt) hrest.le b).symm

/-- The sizes of the spans of a chain add up. -/
theorem Chain.total_size (h : Chain lo hi spans) :
    total (fun s => s.hi - s.lo) spans + lo = hi := by
  induction spans generalizing lo with
  | nil => exact (Nat.zero_add lo).trans h
  | cons s spans ih =>
    obtain ⟨rfl, hlt, hrest⟩ := h
    have := ih hrest
    rw [total_cons]
    omega

theorem Chain.append {mid : Nat} {xs ys : List Span} (hx : Chain lo mid xs) (hy : Chain mid hi ys) :
    Chain lo hi (xs ++ ys) := by
  induction xs generalizing lo with
  | nil =>
    obtain rfl : lo = mid := hx
    exact hy
  | cons s xs ih => exact ⟨hx.1, hx.2.1, ih hx.2.2⟩

/-- The spans between the values of an increasing sequence form a chain. -/
theorem chain_range {c : Nat → Nat} {n : Nat} (hc : ∀ i < n, c i < c (i + 1)) :
    Chain (c 0) (c n) ((List.range n).map fun i => ⟨c i, c (i + 1)⟩) := by
  induction n with
  | zero => exact rfl
  | succ n ih =>
    rw [List.range_succ, List.map_append]
    exact (ih fun i hi => hc i (Nat.lt_succ_of_lt hi)).append ⟨rfl, hc n (Nat.lt_succ_self n), rfl⟩

theorem Chain.bounds (h : Chain lo hi spans) :
    ∀ s ∈ spans, lo ≤ s.lo ∧ s.lo < s.hi ∧ s.hi ≤ hi := by
  induction spans generalizing lo with
  | nil => intro s hs; cases hs
  | cons t spans ih =>
    obtain ⟨rfl, hlt, hrest⟩ := h
    intro s hs
    rcases List.mem_cons.mp hs with rfl | hs
    · exact ⟨Nat.le_refl _, hlt, hrest.le⟩
    · have := ih hrest s hs
      omega

/-- **A tiling in order is a chain.**  Nonempty spans that tile `[lo, hi)` follow each other
once they are sorted by where they start. -/
theorem Tiles.chain (h : Tiles lo hi spans) (hle : lo ≤ hi) (hne : ∀ s ∈ spans, s.lo < s.hi)
    (hsorted : spans.Pairwise fun s t => s.lo ≤ t.lo) : Chain lo hi spans := by
  induction spans generalizing lo with
  | nil =>
    refine Nat.le_antisymm hle (Nat.le_of_not_lt fun hlt => ?_)
    have := h lo
    rw [cover_nil, Span.hits_of_mem ⟨Nat.le_refl lo, hlt⟩] at this
    cases this
  | cons s spans ih =>
    obtain ⟨hfirst, hsorted'⟩ := List.pairwise_cons.mp hsorted
    have hs : s.lo < s.hi := hne s List.mem_cons_self
    -- every span lies inside the range, since its first and its last number do
    have hinside : ∀ t ∈ s :: spans, ∀ b, t.lo ≤ b → b < t.hi → lo ≤ b ∧ b < hi := by
      intro t ht b h₁ h₂
      have hpos : 0 < cover (s :: spans) b := cover_pos.mpr ⟨t, ht, h₁, h₂⟩
      rw [h b, Span.hits_pos] at hpos
      exact hpos
    have hlow := hinside s List.mem_cons_self s.lo (Nat.le_refl _) hs
    -- the span that contains `lo` starts there, and the first one starts no later
    have hstart : s.lo = lo := by
      have hpos : 0 < cover (s :: spans) lo := by
        rw [h lo, Span.hits_pos]
        dsimp only
        omega
      obtain ⟨t, ht, hlo, -⟩ := cover_pos.mp hpos
      rcases List.mem_cons.mp ht with rfl | ht
      · omega
      · have := hfirst t ht
        omega
    have hlast := hinside s List.mem_cons_self (s.hi - 1) (by omega) (by omega)
    refine ⟨hstart, hs, ih ?_ (by omega) (fun t ht => hne t (List.mem_cons_of_mem s ht)) hsorted'⟩
    intro b
    have hb := h b
    have hcut := hits_cut (show lo ≤ s.hi by omega) (show s.hi ≤ hi by omega) b
    rw [cover_cons, hcut, show (Span.mk lo s.hi) = s by rw [← hstart]] at hb
    omega

theorem Tiles.perm {xs ys : List Span} (h : Tiles lo hi xs) (hp : xs.Perm ys) :
    Tiles lo hi ys := fun b => (total_perm hp).symm.trans (h b)

end Tiling
