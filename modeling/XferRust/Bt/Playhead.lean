import Mathlib.Data.List.Sort
import Mathlib.Data.Prod.Lex
import Mathlib.Order.Nat

/-! # The order of pieces around the playhead

While a file is played during its download, the pieces close to the playhead come first and in
their own order; the others are taken rarest first, as without a playhead.  Offsets are 64-bit words
and the windows around the playhead stop at their ends.
-/
namespace XferRust.Bt.Playhead

/-- `STREAM_WINDOW_BYTES`. -/
def streamWindowBytes : UInt64 := 32 * 1024 * 1024
/-- `NEXT_WINDOW_BYTES`. -/
def nextWindowBytes : UInt64 := 128 * 1024 * 1024
/-- `BACK_WINDOW_BYTES`. -/
def backWindowBytes : UInt64 := 8 * 1024 * 1024

inductive Tier
  | stream
  | next
  | soon
  | backfill
  deriving DecidableEq

/-- `tier as u8`. -/
def Tier.toNat : Tier → Nat
  | .stream => 0
  | .next => 1
  | .soon => 2
  | .backfill => 3

/-- `saturating_add`. -/
def saturatingAdd (a b : UInt64) : UInt64 :=
  if a.toNat + b.toNat < 18446744073709551616 then a + b else 0xFFFFFFFFFFFFFFFF

/-- `saturating_sub`. -/
def saturatingSub (a b : UInt64) : UInt64 := if b ≤ a then a - b else 0

/-- `overlaps`. -/
def overlaps (aStart aEnd bStart bEnd : UInt64) : Bool := aStart < bEnd && bStart < aEnd

/-- `tier_of`. -/
def tierOf (pieceStart pieceEnd playhead : UInt64) : Tier :=
  if overlaps pieceStart pieceEnd playhead (saturatingAdd playhead streamWindowBytes) then .stream
  else
    let streamEnd := saturatingAdd playhead streamWindowBytes
    let nextEnd := saturatingAdd playhead nextWindowBytes
    if overlaps pieceStart pieceEnd streamEnd nextEnd then .next
    else
      let backStart := saturatingSub playhead backWindowBytes
      if overlaps pieceStart pieceEnd backStart playhead then .soon else .backfill

/-- A piece with the number of connected peers that have it. -/
abbrev Candidate := UInt32 × UInt32

/-- The key of a candidate in a tier. -/
def tierKey (c : Candidate) : Tier → Nat ×ₗ Nat ×ₗ Nat
  | .backfill => toLex (Tier.backfill.toNat, toLex (c.2.toNat, c.1.toNat))
  | tier => toLex (tier.toNat, toLex (c.1.toNat, c.2.toNat))

/-- The key of a candidate, with a playhead. -/
def key (playhead : UInt64) (pieceRange : UInt32 → UInt64 × UInt64) (c : Candidate) :
    Nat ×ₗ Nat ×ₗ Nat :=
  tierKey c (tierOf (pieceRange c.1).1 (pieceRange c.1).2 playhead)

/-- The key of a candidate, without one. -/
def rarityKey (c : Candidate) : Nat ×ₗ Nat := toLex (c.2.toNat, c.1.toNat)

/-- The candidates in ascending order of a key.  Keys of different pieces are different, so that the
source's unstable sort has no choice. -/
def sortByKey {κ : Type} [LE κ] [DecidableRel (α := κ) (· ≤ ·)] (k : Candidate → κ)
    (candidates : List Candidate) : List Candidate :=
  candidates.insertionSort fun a b => k a ≤ k b

/-- `order`. -/
def order (candidates : List Candidate) (playhead : Option UInt64)
    (pieceRange : UInt32 → UInt64 × UInt64) : List Candidate :=
  match playhead with
  | none => sortByKey rarityKey candidates
  | some playhead => sortByKey (key playhead pieceRange) candidates

/-! ## What comes first -/

/-- A piece has a byte between `lo` and `hi`. -/
def Meets (range : UInt64 × UInt64) (lo hi : Nat) : Prop :=
  ∃ b, range.1.toNat ≤ b ∧ b < range.2.toNat ∧ lo ≤ b ∧ b < hi

variable {range : UInt64 × UInt64} {playhead : UInt64}

theorem meets_iff {lo hi : Nat} :
    Meets range lo hi ↔ max range.1.toNat lo < min range.2.toNat hi := by
  constructor
  · rintro ⟨b, h₁, h₂, h₃, h₄⟩
    omega
  · intro h
    exact ⟨max range.1.toNat lo, by omega, by omega, by omega, by omega⟩

instance (range : UInt64 × UInt64) (lo hi : Nat) : Decidable (Meets range lo hi) :=
  decidable_of_iff _ meets_iff.symm

/-- The window that a piece is in: the first of the 32 MiB from the playhead on, those up to 128 MiB
and the 8 MiB in front of it that has one of the piece's bytes. -/
def windowOf (playhead : UInt64) (range : UInt64 × UInt64) : Tier :=
  if Meets range playhead.toNat (playhead.toNat + 33554432) then .stream
  else if Meets range (playhead.toNat + 33554432) (playhead.toNat + 134217728) then .next
  else if Meets range (playhead.toNat - 8388608) playhead.toNat then .soon
  else .backfill

/-- Rarest first. -/
def Rarer (a b : Candidate) : Prop := a.2 < b.2 ∨ a.2 = b.2 ∧ a.1 < b.1

/-- **The priority of pieces**: the windows in their order, the pieces of a window in theirs, and
all others rarest first. -/
def Before (playhead : UInt64) (pieceRange : UInt32 → UInt64 × UInt64) (a b : Candidate) : Prop :=
  let tier := windowOf playhead (pieceRange a.1)
  let tier' := windowOf playhead (pieceRange b.1)
  tier.toNat < tier'.toNat ∨
    tier = tier' ∧ (if tier = .backfill then Rarer a b else a.1 < b.1)

/-! ## Windows -/

theorem toNat_saturatingAdd (a b : UInt64) :
    (saturatingAdd a b).toNat = min (a.toNat + b.toNat) 18446744073709551615 := by
  unfold saturatingAdd
  split
  · rename_i h
    rw [UInt64.toNat_add, Nat.mod_eq_of_lt h]
    omega
  · rename_i h
    show 18446744073709551615 = _
    omega

theorem toNat_saturatingSub (a b : UInt64) : (saturatingSub a b).toNat = a.toNat - b.toNat := by
  unfold saturatingSub
  split
  · rename_i h
    exact UInt64.toNat_sub_of_le _ _ h
  · rename_i h
    rw [UInt64.le_iff_toNat_le] at h
    show 0 = _
    omega

theorem overlaps_iff {aStart aEnd bStart bEnd : UInt64} :
    overlaps aStart aEnd bStart bEnd = true ↔
      aStart.toNat < bEnd.toNat ∧ bStart.toNat < aEnd.toNat := by
  rw [overlaps, Bool.and_eq_true, decide_eq_true_iff, decide_eq_true_iff, UInt64.lt_iff_toNat_lt,
    UInt64.lt_iff_toNat_lt]

/-- A window that stops at the last offset misses no byte of a piece. -/
theorem overlaps_eq_meets {lo hi : UInt64} {m n : Nat} (hrange : range.1 < range.2)
    (hlo : lo.toNat = min m 18446744073709551615) (hhi : hi.toNat = min n 18446744073709551615)
    (hmn : m < n) : overlaps range.1 range.2 lo hi = decide (Meets range m n) := by
  have := range.2.toNat_lt
  rw [UInt64.lt_iff_toNat_lt] at hrange
  rw [Bool.eq_iff_iff, overlaps_iff, decide_eq_true_iff, meets_iff]
  omega

/-- **The tier of a piece** is its window. -/
theorem tierOf_eq (hrange : range.1 < range.2) :
    tierOf range.1 range.2 playhead = windowOf playhead range := by
  have hlt := playhead.toNat_lt
  have hstream : streamWindowBytes.toNat = 33554432 := rfl
  have hnext : nextWindowBytes.toNat = 134217728 := rfl
  have hback : backWindowBytes.toNat = 8388608 := rfl
  have hstreamEnd := toNat_saturatingAdd playhead streamWindowBytes
  have hnextEnd := toNat_saturatingAdd playhead nextWindowBytes
  have hbackStart := toNat_saturatingSub playhead backWindowBytes
  rw [hstream] at hstreamEnd
  rw [hnext] at hnextEnd
  rw [hback] at hbackStart
  have hle : playhead.toNat ≤ 18446744073709551615 := Nat.le_of_lt_succ hlt
  have hself := (Nat.min_eq_left hle).symm
  have hfront := hbackStart.trans (Nat.min_eq_left (Nat.le_trans (Nat.sub_le _ _) hle)).symm
  have hstart : playhead.toNat < playhead.toNat + 33554432 := Nat.lt_add_of_pos_right (by decide)
  have hmiddle : playhead.toNat + 33554432 < playhead.toNat + 134217728 :=
    Nat.add_lt_add_left (by decide) _
  unfold tierOf windowOf
  dsimp only
  rw [overlaps_eq_meets hrange hself hstreamEnd hstart,
    overlaps_eq_meets hrange hstreamEnd hnextEnd hmiddle]
  by_cases hzero : playhead.toNat = 0
  · -- at the start there is nothing behind the playhead
    have hnone : overlaps range.1 range.2 (saturatingSub playhead backWindowBytes) playhead =
        decide (Meets range (playhead.toNat - 8388608) playhead.toNat) := by
      rw [Bool.eq_iff_iff, overlaps_iff, decide_eq_true_iff, meets_iff, hzero, Nat.min_zero]
      exact iff_of_false (fun h => Nat.not_lt_zero _ h.1) (Nat.not_lt_zero _)
    rw [hnone]
    simp only [decide_eq_true_eq]
  · rw [overlaps_eq_meets hrange hfront hself (Nat.sub_lt (by omega) (by decide))]
    simp only [decide_eq_true_eq]

/-! ## Sorting -/

section
variable {κ : Type} [LinearOrder κ] (k : Candidate → κ)

theorem sortByKey_perm (candidates : List Candidate) :
    (sortByKey k candidates).Perm candidates := List.perm_insertionSort _ _

theorem sortByKey_pairwise (candidates : List Candidate) :
    (sortByKey k candidates).Pairwise fun a b => k a ≤ k b := by
  have : Std.Total fun a b : Candidate => k a ≤ k b := ⟨fun a b => le_total (k a) (k b)⟩
  have : IsTrans Candidate fun a b => k a ≤ k b := ⟨fun _ _ _ => le_trans⟩
  exact List.pairwise_insertionSort _ _

end

/-! ## The order of the candidates -/

theorem lt_of_toNat_le {a b : UInt32} (hle : a.toNat ≤ b.toNat) (hne : a ≠ b) : a < b := by
  have hnat : a.toNat ≠ b.toNat := fun h => hne (UInt32.toNat_inj.mp h)
  rw [UInt32.lt_iff_toNat_lt]
  omega

theorem rarer_of_le {a b : Candidate} (h : rarityKey a ≤ rarityKey b) (hne : a.1 ≠ b.1) :
    Rarer a b := by
  rcases Prod.Lex.toLex_le_toLex.mp h with hlt | ⟨heq, hle⟩
  · exact .inl (UInt32.lt_iff_toNat_lt.mpr hlt)
  · exact .inr ⟨UInt32.toNat_inj.mp heq, lt_of_toNat_le hle hne⟩

/-- The key of a candidate, in terms of its window. -/
theorem key_eq {pieceRange : UInt32 → UInt64 × UInt64} {c : Candidate}
    (hc : (pieceRange c.1).1 < (pieceRange c.1).2) :
    key playhead pieceRange c =
      toLex ((windowOf playhead (pieceRange c.1)).toNat,
        if windowOf playhead (pieceRange c.1) = .backfill then rarityKey c
        else toLex (c.1.toNat, c.2.toNat)) := by
  rw [key, tierOf_eq hc]
  generalize windowOf playhead (pieceRange c.1) = tier
  cases tier with
  | stream => rfl
  | next => rfl
  | soon => rfl
  | backfill => rfl

theorem Tier.toNat_inj {t t' : Tier} (h : t.toNat = t'.toNat) : t = t' := by
  cases t <;> cases t' <;> first | rfl | exact absurd h (by decide)

theorem before_of_le {pieceRange : UInt32 → UInt64 × UInt64} {a b : Candidate}
    (ha : (pieceRange a.1).1 < (pieceRange a.1).2) (hb : (pieceRange b.1).1 < (pieceRange b.1).2)
    (h : key playhead pieceRange a ≤ key playhead pieceRange b) (hne : a.1 ≠ b.1) :
    Before playhead pieceRange a b := by
  rw [key_eq ha, key_eq hb] at h
  rcases Prod.Lex.toLex_le_toLex.mp h with hlt | ⟨heq, hle⟩
  · exact .inl hlt
  have htier := Tier.toNat_inj heq
  refine .inr ⟨htier, ?_⟩
  dsimp only at hle htier ⊢
  rw [← htier] at hle
  split
  · rename_i hback
    rw [if_pos hback, if_pos hback] at hle
    exact rarer_of_le hle hne
  · rename_i hwindow
    rw [if_neg hwindow, if_neg hwindow] at hle
    rcases Prod.Lex.toLex_le_toLex.mp hle with hlt | ⟨heq, -⟩
    · exact UInt32.lt_iff_toNat_lt.mpr hlt
    · exact absurd (UInt32.toNat_inj.mp heq) hne

/-- What holds of different candidates in their order holds of all pairs in it. -/
theorem pairwise_of_distinct {R S : Candidate → Candidate → Prop} {cs : List Candidate}
    (hdistinct : (cs.map Prod.fst).Nodup) (hR : cs.Pairwise R)
    (h : ∀ a ∈ cs, ∀ b ∈ cs, R a b → a.1 ≠ b.1 → S a b) : cs.Pairwise S := by
  have hne : cs.Pairwise fun a b => a.1 ≠ b.1 := List.pairwise_map.mp hdistinct
  exact (hR.and hne).imp_of_mem fun ha hb hab => h _ ha _ hb hab.1 hab.2

/-- **The order is the priority of the pieces**: all candidates are in it, and of any two the one
with priority comes first; without a playhead it is the rarest. -/
theorem order_priority (candidates : List Candidate) (pieceRange : UInt32 → UInt64 × UInt64)
    (hdistinct : (candidates.map Prod.fst).Nodup)
    (hpieces : ∀ c ∈ candidates, (pieceRange c.1).1 < (pieceRange c.1).2) :
    (∀ playhead, (order candidates playhead pieceRange).Perm candidates) ∧
      (∀ playhead, (order candidates (some playhead) pieceRange).Pairwise
        (Before playhead pieceRange)) ∧
      (order candidates none pieceRange).Pairwise Rarer := by
  have hperm : ∀ playhead, (order candidates playhead pieceRange).Perm candidates := by
    intro playhead
    cases playhead with
    | none => exact sortByKey_perm _ _
    | some playhead => exact sortByKey_perm _ _
  have hnodup : ∀ playhead, ((order candidates playhead pieceRange).map Prod.fst).Nodup :=
    fun playhead => ((hperm playhead).map Prod.fst).nodup_iff.mpr hdistinct
  refine ⟨hperm, fun playhead => ?_, ?_⟩
  · have hrange : ∀ c ∈ order candidates (some playhead) pieceRange,
        (pieceRange c.1).1 < (pieceRange c.1).2 :=
      fun c hc => hpieces c ((hperm _).mem_iff.mp hc)
    exact pairwise_of_distinct (hnodup _) (sortByKey_pairwise _ _)
      fun a ha b hb hle hne => before_of_le (hrange a ha) (hrange b hb) hle hne
  · exact pairwise_of_distinct (hnodup _) (sortByKey_pairwise _ _)
      fun a _ b _ hle hne => rarer_of_le hle hne

/-- Four pieces of 64 MiB up to the last offset, with the playhead in the second one. -/
theorem order_at_the_end :
    (∀ playhead, (order [(3, 1), (0, 7), (2, 9), (1, 2)] playhead fun i =>
        (0xFFFFFFFFF0000000 + i.toUInt64 * 0x4000000,
          0xFFFFFFFFF3FFFFFF + i.toUInt64 * 0x4000000)).Perm
        [(3, 1), (0, 7), (2, 9), (1, 2)]) ∧
      (∀ playhead, (order [(3, 1), (0, 7), (2, 9), (1, 2)] (some playhead) fun i =>
        (0xFFFFFFFFF0000000 + i.toUInt64 * 0x4000000,
          0xFFFFFFFFF3FFFFFF + i.toUInt64 * 0x4000000)).Pairwise
        (Before playhead fun i => (0xFFFFFFFFF0000000 + i.toUInt64 * 0x4000000,
          0xFFFFFFFFF3FFFFFF + i.toUInt64 * 0x4000000))) ∧
      (order [(3, 1), (0, 7), (2, 9), (1, 2)] none fun i =>
        (0xFFFFFFFFF0000000 + i.toUInt64 * 0x4000000,
          0xFFFFFFFFF3FFFFFF + i.toUInt64 * 0x4000000)).Pairwise Rarer :=
  order_priority _ _ (by decide) (by
    simp only [List.forall_mem_cons, List.not_mem_nil, false_implies, implies_true, and_true]
    decide)

end XferRust.Bt.Playhead
