import Mathlib.Algebra.Order.Field.Basic
import Mathlib.Tactic.Linarith

/-! # Token buckets

A bucket gains tokens at a constant rate up to a capacity, and tokens are taken from it.  However
the looks at the bucket are spread over time, what is taken from it in an interval is bounded by one
full bucket and what flows in during the interval.  `Account` is the invariant behind this: what was
taken and what is left come from these two sources.
-/
namespace TokenBucket

variable {K : Type} [Field K] [LinearOrder K] [IsStrictOrderedRing K]

/-- What is in a bucket, and the time up to which it has gained. -/
structure Bucket (K : Type) where
  tokens : K
  last : K

variable {rate cap start spent : K} {b : Bucket K}

/-- The bucket with what it has gained up to `now`. -/
def Bucket.refill (rate cap : K) (b : Bucket K) (now : K) : Bucket K :=
  ⟨min (b.tokens + (now - b.last) * rate) cap, now⟩

/-- The bucket without `n` of its tokens. -/
def Bucket.take (b : Bucket K) (n : K) : Bucket K := ⟨b.tokens - n, b.last⟩

omit [IsStrictOrderedRing K] in
theorem Bucket.refill_le (rate cap : K) (b : Bucket K) (now : K) :
    (b.refill rate cap now).tokens ≤ cap := min_le_right _ _

/-- A refill does not bring a bucket below zero. -/
theorem Bucket.refill_nonneg (hrate : 0 ≤ rate) (hcap : 0 ≤ cap) (hb : 0 ≤ b.tokens) {now : K}
    (hnow : b.last ≤ now) : 0 ≤ (b.refill rate cap now).tokens := by
  refine le_min (add_nonneg hb (mul_nonneg ?_ hrate)) hcap
  exact sub_nonneg.mpr hnow

/-- Since `start` so much was taken from the bucket: together with what is left, it is no more than
a full bucket and what has flown in. -/
structure Account (rate cap start : K) (b : Bucket K) (spent : K) : Prop where
  since : start ≤ b.last
  bound : spent + b.tokens ≤ cap + (b.last - start) * rate

/-- **The first look** of an interval finds no more than a full bucket. -/
theorem account_refill (hrate : 0 ≤ rate) (b : Bucket K) {now : K} (hnow : start ≤ now) :
    Account rate cap start (b.refill rate cap now) 0 where
  since := hnow
  bound := by
    have hflow : 0 ≤ (now - start) * rate := mul_nonneg (sub_nonneg.mpr hnow) hrate
    have hfull := b.refill_le rate cap now
    show 0 + (b.refill rate cap now).tokens ≤ cap + (now - start) * rate
    linarith

/-- **A later look** adds no more than what has flown in. -/
theorem Account.refill (h : Account rate cap start b spent) {now : K} (hnow : b.last ≤ now) :
    Account rate cap start (b.refill rate cap now) spent where
  since := le_trans h.since hnow
  bound := by
    have hgain : (b.refill rate cap now).tokens ≤ b.tokens + (now - b.last) * rate :=
      min_le_left _ _
    have hsplit : (now - start) * rate = (now - b.last) * rate + (b.last - start) * rate := by
      rw [← add_mul, sub_add_sub_cancel]
    have hold := h.bound
    show spent + (b.refill rate cap now).tokens ≤ cap + (now - start) * rate
    linarith

/-- What is taken moves from one side of the account to the other. -/
theorem Account.take (h : Account rate cap start b spent) (n : K) :
    Account rate cap start (b.take n) (spent + n) where
  since := h.since
  bound := by
    have hold := h.bound
    show spent + n + (b.tokens - n) ≤ cap + (b.last - start) * rate
    linarith

/-- **The bound of an interval.** -/
theorem Account.spent_le (h : Account rate cap start b spent) (hrate : 0 ≤ rate)
    (hb : 0 ≤ b.tokens) {stop : K} (hstop : b.last ≤ stop) :
    spent ≤ cap + (stop - start) * rate := by
  have hlater : (b.last - start) * rate ≤ (stop - start) * rate :=
    mul_le_mul_of_nonneg_right (sub_le_sub_right hstop start) hrate
  have hold := h.bound
  linarith

end TokenBucket
