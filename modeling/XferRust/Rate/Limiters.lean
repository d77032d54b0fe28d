import XferRust.Lib.Waiting
import XferRust.Bt.PeerReader
import XferRust.Flv.Stream

/-! # The two token buckets

`Shared` is the limiter of all the HTTP downloads (`xfer-types`), `Torrent` the one of a torrent.
Times are in nanoseconds.  The tokens of the shared bucket are a fraction of a byte in the
source and are counted here in billionths of one, so that `elapsed × rate` is exact.

A request can only be granted when it is not larger than the bucket, and the bucket of a slow
limiter is 64 KiB (`limiters_end_iff`).
-/
namespace XferRust.Rate

open Waiting

/-- `MIN_BURST` and `RATE_LIMITER_MIN_BURST`, which are the same number of bytes. -/
def minBurst : Nat := 64 * 1024

def nanosPerMilli : Nat := 1000000

def nanosPerSecond : Nat := 1000000000

/-! ## The shared bucket -/

namespace Shared

/-- `MAX_SLEEP`. -/
def maxSleep : Nat := 50 * nanosPerMilli

/-- `Bucket`. -/
structure Bucket where
  tokens : Nat
  last : Nat

/-- The bucket of `RateLimiter::new`. -/
def Bucket.new (now : Nat) : Bucket := { tokens := minBurst * nanosPerSecond, last := now }

/-- What the bucket holds, in billionths, when it is full. -/
def capacity (rate : Nat) : Nat := max rate minBurst * nanosPerSecond

/-- The bucket with the tokens that came since it was last looked at. -/
def Bucket.refill (b : Bucket) (rate now : Nat) : Bucket :=
  { tokens := min (b.tokens + (now - b.last) * rate) (capacity rate), last := now }

/-- The time that a request sleeps which is `deficit` billionths short. -/
def sleepTime (rate deficit : Nat) : Nat :=
  min (min (max (deficit / rate) nanosPerMilli) nanosPerSecond) maxSleep

/-- One round of the loop in `acquire`. -/
def acquireRound (rate n : Nat) (b : Bucket) (now : Nat) : Poll Bucket :=
  if rate = 0 then .done b
  else
    let b := b.refill rate now
    if n * nanosPerSecond ≤ b.tokens then
      .done { b with tokens := b.tokens - n * nanosPerSecond }
    else .sleep b (sleepTime rate (n * nanosPerSecond - b.tokens))

/-- `RateLimiter::acquire`: a request of nothing does not look at the bucket. -/
def acquire (rate n : Nat) (b : Bucket) (now : Nat) : Poll Bucket :=
  if n = 0 then .done b else acquireRound rate n b now

/-! ### When a request is granted -/

/-- A request of `n` bytes is granted in the end: whatever the bucket holds, and however long the
sleeps last. -/
def Grants (rate n : Nat) : Prop := ∀ b now, Ends (acquire rate n) b now

theorem Bucket.refill_le (b : Bucket) (rate now : Nat) :
    (b.refill rate now).tokens ≤ capacity rate := Nat.min_le_right _ _

theorem sleepTime_pos (rate deficit : Nat) : 0 < sleepTime rate deficit := by
  unfold sleepTime
  refine Nat.lt_min.mpr ⟨Nat.lt_min.mpr ⟨?_, by decide⟩, by decide⟩
  exact Nat.lt_of_lt_of_le (by decide) (Nat.le_max_right _ nanosPerMilli)

variable {rate : Nat}

/-- A round that sleeps leaves the bucket refilled, with less in it than the request. -/
theorem acquire_eq_sleep {n : Nat} {b b' : Bucket} {now time : Nat}
    (h : acquire rate n b now = .sleep b' time) :
    0 < rate ∧ b' = b.refill rate now ∧ b'.tokens < n * nanosPerSecond ∧ 0 < time := by
  unfold acquire at h
  split at h
  · cases h
  unfold acquireRound at h
  split at h
  · cases h
  rename_i hrate
  dsimp only at h
  split at h
  · cases h
  rename_i hshort
  cases h
  exact ⟨Nat.pos_of_ne_zero hrate, rfl, Nat.not_le.mp hshort, sleepTime_pos _ _⟩

/-- Time adds to a bucket that is not full. -/
theorem refill_grows {target : Nat} {b : Bucket} {now late : Nat} (hrate : 0 < rate)
    (hlate : 0 < late) (hshort : (b.refill rate now).tokens < target)
    (hfits : target ≤ capacity rate) :
    (b.refill rate now).tokens <
      ((b.refill rate now).refill rate (now + late)).tokens := by
  have hgain : 0 < (now + late - now) * rate := by
    rw [Nat.add_sub_cancel_left]
    exact Nat.mul_pos hlate hrate
  refine Nat.lt_min.mpr ⟨?_, Nat.lt_of_lt_of_le hshort hfits⟩
  exact Nat.lt_add_of_pos_right hgain

/-- A request that fits into the bucket is granted. -/
theorem grants_of_fits {n : Nat} (hfits : n ≤ max rate minBurst) : Grants rate n := by
  intro b now
  refine ends_of_measure (I := fun _ _ => True)
    (fun b now => n * nanosPerSecond - (b.refill rate now).tokens) ?_ trivial
  intro b now _ b' time hsleep late
  obtain ⟨hrate, rfl, hshort, htime⟩ := acquire_eq_sleep hsleep
  have hgrows := refill_grows hrate (Nat.add_pos_left htime late) hshort
    (Nat.mul_le_mul_right _ hfits)
  rw [← Nat.add_assoc] at hgrows
  exact ⟨trivial, by omega⟩

/-- A request that does not fit is never granted, whatever the timers do. -/
theorem not_mayEnd_of_large {n : Nat} (hrate : rate ≠ 0) (hlarge : max rate minBurst < n)
    (b : Bucket) (now : Nat) : ¬ MayEnd (acquire rate n) b now := by
  refine not_mayEnd_of_sleeps (fun b now => ?_) b now
  have hn : n ≠ 0 := Nat.ne_zero_of_lt hlarge
  have hshort : ¬ n * nanosPerSecond ≤ (b.refill rate now).tokens := by
    refine Nat.not_le.mpr (Nat.lt_of_le_of_lt (b.refill_le rate now) ?_)
    exact Nat.mul_lt_mul_of_pos_right hlarge (by decide)
  refine ⟨b.refill rate now, sleepTime rate (n * nanosPerSecond - (b.refill rate now).tokens), ?_⟩
  unfold acquire acquireRound
  rw [if_neg hn, if_neg hrate, if_neg hshort]

/-- **The shared limiter** grants exactly the requests that fit into its bucket. -/
theorem grants_iff (rate n : Nat) : Grants rate n ↔ rate = 0 ∨ n ≤ max rate minBurst := by
  constructor
  · intro h
    refine Classical.byContradiction fun hno => ?_
    obtain ⟨hrate, hlarge⟩ := not_or.mp hno
    exact not_mayEnd_of_large hrate (Nat.not_le.mp hlarge) _ _ (h (Bucket.new 0) 0).mayEnd
  · rintro (rfl | hfits)
    · intro b now
      have hdone : acquire 0 n b now = .done b := by
        unfold acquire acquireRound
        split <;> rfl
      exact .done hdone
    · exact grants_of_fits hfits

end Shared

/-! ## The bucket of a torrent -/

namespace Torrent

/-- `RATE_LIMIT_INTERVAL`. -/
def rateLimitInterval : Nat := 100 * nanosPerMilli

/-- The longest sleep of the loops around `try_consume`. -/
def maxSleep : Nat := 500 * nanosPerMilli

/-- `capacity`, of a limiter with this rate. -/
def capacity (rate : Nat) : Nat := max rate minBurst

/-- `RateLimiter`, which never holds more than its capacity. -/
structure RateLimiter where
  rate : Nat
  tokens : Nat
  lastRefill : Nat
  tokens_le : tokens ≤ capacity rate

namespace RateLimiter

/-- `RateLimiter::new`. -/
def new (rate now : Nat) : RateLimiter where
  rate := rate
  tokens := rate
  lastRefill := now
  tokens_le := Nat.le_max_left rate minBurst

/-- `refill`. -/
def refill (l : RateLimiter) (now : Nat) : RateLimiter :=
  if l.rate = 0 then l
  else if now - l.lastRefill < rateLimitInterval then l
  else
    { rate := l.rate
      tokens := min (l.tokens + l.rate * ((now - l.lastRefill) / nanosPerMilli) / 1000)
        (capacity l.rate)
      lastRefill := now
      tokens_le := Nat.min_le_right _ _ }

/-- `set_rate`. -/
def setRate (l : RateLimiter) (rate now : Nat) : RateLimiter where
  rate := rate
  tokens := min (l.refill now).tokens (max (capacity rate) 1)
  lastRefill := (l.refill now).lastRefill
  tokens_le := by
    have hpos : 1 ≤ capacity rate := Nat.le_trans (by decide) (Nat.le_max_right rate minBurst)
    rw [Nat.max_eq_left hpos]
    exact Nat.min_le_right _ _

/-- The milliseconds that `try_consume` answers when it is `deficit` tokens short. -/
def waitMillis (rate deficit : Nat) : Nat := max (deficit * 1000 / rate) 1

/-- `try_consume`: the bucket behind it, and the milliseconds to wait where it was not enough. -/
def tryConsume (l : RateLimiter) (n now : Nat) : RateLimiter × Option Nat :=
  let l := l.refill now
  if l.rate = 0 then (l, none)
  else if n ≤ l.tokens then
    ({ l with
        tokens := l.tokens - n
        tokens_le := Nat.le_trans (Nat.sub_le _ _) l.tokens_le }, none)
  else (l, some (waitMillis l.rate (n - l.tokens)))

/-- One round of the loops around `try_consume`. -/
def consumeRound (n : Nat) (l : RateLimiter) (now : Nat) : Poll RateLimiter :=
  match l.tryConsume n now with
  | (l, none) => .done l
  | (l, some ms) => .sleep l (min (ms * nanosPerMilli) maxSleep)

/-! ### When a request is granted -/

/-- The loop around `try_consume` comes to its end for a request of `n` bytes at this rate:
whatever the limiter holds, whenever it was refilled last, and however long the sleeps last. -/
def Grants (rate n : Nat) : Prop :=
  ∀ l : RateLimiter, l.rate = rate → ∀ now, l.lastRefill ≤ now → Ends (consumeRound n) l now

/-- The rates that the bucket really refills at.  Below ten bytes a second the tokens of one sleep
may be rounded off, and they are gone then: the bucket counts whole milliseconds of whole
tokens, and starts anew at each refill. -/
def Refills (rate : Nat) : Prop := 10 ≤ rate ∨ rate = 2 ∨ rate = 4 ∨ rate = 5 ∨ rate = 8

instance : DecidablePred Refills := fun rate => by unfold Refills; infer_instance

@[simp] theorem refill_rate (l : RateLimiter) (now : Nat) : (l.refill now).rate = l.rate := by
  unfold refill
  split
  · rfl
  split <;> rfl

variable {l l' : RateLimiter} {n now time : Nat}

/-- A round that sleeps has less in the bucket than the request, and asks for the milliseconds
that `try_consume` answered, within the bound of the loop. -/
theorem consumeRound_eq_sleep :
    consumeRound n l now = .sleep l' time ↔
      l.rate ≠ 0 ∧ l' = l.refill now ∧ l'.tokens < n ∧
        time = min (waitMillis l.rate (n - l'.tokens) * nanosPerMilli) maxSleep := by
  unfold consumeRound tryConsume
  dsimp only
  rw [← refill_rate l now]
  by_cases hrate : (l.refill now).rate = 0
  · rw [if_pos hrate]
    constructor
    · intro h
      cases h
    · rintro ⟨h, -⟩
      exact absurd hrate h
  rw [if_neg hrate]
  by_cases hfits : n ≤ (l.refill now).tokens
  · rw [if_pos hfits]
    constructor
    · intro h
      cases h
    · rintro ⟨-, rfl, h, -⟩
      exact absurd hfits (Nat.not_le.mpr h)
  rw [if_neg hfits]
  constructor
  · intro h
    cases h
    exact ⟨hrate, rfl, Nat.not_le.mp hfits, rfl⟩
  · rintro ⟨-, rfl, -, rfl⟩
    rfl

/-- Too early for a refill nothing changes. -/
theorem refill_early (h : now - l.lastRefill < rateLimitInterval) : l.refill now = l := by
  unfold refill
  rw [if_pos h, ite_self]

/-- The bucket after a refill. -/
theorem refill_due (hrate : l.rate ≠ 0) (h : rateLimitInterval ≤ now - l.lastRefill) :
    (l.refill now).lastRefill = now ∧ (l.refill now).tokens =
      min (l.tokens + l.rate * ((now - l.lastRefill) / nanosPerMilli) / 1000)
        (capacity l.rate) := by
  unfold refill
  rw [if_neg hrate, if_neg (Nat.not_lt.mpr h)]
  exact ⟨rfl, rfl⟩

/-! ### Requests that fit -/

variable {rate : Nat}

/-- The tokens that `ms` milliseconds bring are none only at a rate that does not refill. -/
theorem gain_pos {deficit ms : Nat} (hr : Refills rate) (hd : 0 < deficit) (hinterval : 100 ≤ ms)
    (hwait : min (waitMillis rate deficit) 500 ≤ ms) : 0 < rate * ms / 1000 := by
  refine Nat.div_pos ?_ (by decide)
  rcases hr with hr | hr
  · exact Nat.mul_le_mul hr hinterval
  · have hone : min (1000 / rate) 500 ≤ ms := by
      refine Nat.le_trans ?_ hwait
      refine Nat.le_min.mpr ⟨?_, Nat.min_le_right _ _⟩
      refine Nat.le_trans (Nat.min_le_left _ _) (Nat.le_trans ?_ (Nat.le_max_left _ 1))
      exact Nat.div_le_div_right (Nat.le_mul_of_pos_left 1000 hd)
    rcases hr with rfl | rfl | rfl | rfl <;> omega

/-- What is still missing: the tokens that a request is short of, and between two refills the
milliseconds until the next one. -/
def missing (n : Nat) (l : RateLimiter) (now : Nat) : Nat :=
  (n - l.tokens) * 101 + (100 - (now - l.lastRefill) / nanosPerMilli)

/-- A limiter that has slept as long as its last answer asked for. -/
structure Slept (n : Nat) (l : RateLimiter) (now : Nat) : Prop where
  past : l.lastRefill ≤ now
  long : min (waitMillis l.rate (n - l.tokens)) 500 ≤ (now - l.lastRefill) / nanosPerMilli

theorem lastRefill_le (h : l.lastRefill ≤ now) : (l.refill now).lastRefill ≤ now := by
  unfold refill
  split
  · exact h
  split
  · exact h
  · exact Nat.le_refl now

/-- Behind a round that sleeps the limiter has slept long enough, however late it wakes. -/
theorem slept_of_sleep (hpast : l.lastRefill ≤ now) (h : consumeRound n l now = .sleep l' time)
    (late : Nat) : Slept n l' (now + time + late) := by
  obtain ⟨-, rfl, -, rfl⟩ := consumeRound_eq_sleep.mp h
  have hlast := lastRefill_le hpast
  refine ⟨by omega, ?_⟩
  unfold maxSleep
  rw [refill_rate, Nat.le_div_iff_mul_le (by decide), ← Nat.mul_min_mul_right]
  omega

/-- A sleep lasts a millisecond or more. -/
theorem milli_le_of_sleep (h : consumeRound n l now = .sleep l' time) : nanosPerMilli ≤ time := by
  obtain ⟨-, -, -, rfl⟩ := consumeRound_eq_sleep.mp h
  refine Nat.le_min.mpr ⟨?_, by decide⟩
  exact Nat.le_mul_of_pos_left _ (Nat.le_max_right _ 1)

/-- A round that sleeps leaves less missing. -/
theorem missing_lt (hr : Refills l.rate) (hfits : n ≤ capacity l.rate) (hslept : Slept n l now)
    (h : consumeRound n l now = .sleep l' time) (late : Nat) :
    missing n l' (now + time + late) < missing n l now := by
  have hmilli := milli_le_of_sleep h
  obtain ⟨hrate, rfl, hshort, -⟩ := consumeRound_eq_sleep.mp h
  have hpast := hslept.past
  by_cases hearly : now - l.lastRefill < rateLimitInterval
  · -- nothing came yet, but the next refill is closer
    rw [refill_early hearly]
    unfold missing
    unfold rateLimitInterval nanosPerMilli at *
    omega
  · -- at least one token came, and none of them was cut off by the capacity
    have hdue := Nat.not_lt.mp hearly
    obtain ⟨hlast, htokens⟩ := refill_due hrate hdue
    rw [htokens] at hshort
    have hwhole : l.tokens + l.rate * ((now - l.lastRefill) / nanosPerMilli) / 1000 < n := by omega
    rw [Nat.min_eq_left (Nat.le_trans (Nat.le_of_lt hwhole) hfits)] at htokens
    have hinterval : 100 ≤ (now - l.lastRefill) / nanosPerMilli :=
      (Nat.le_div_iff_mul_le (by decide)).mpr hdue
    have hdeficit : 0 < n - l.tokens := by omega
    have hgain := gain_pos hr hdeficit hinterval hslept.long
    unfold missing
    rw [htokens]
    refine Nat.lt_of_le_of_lt (Nat.add_le_add_left (Nat.sub_le 100 _) _) ?_
    refine Nat.lt_of_lt_of_le ?_ (Nat.le_add_right _ _)
    omega

/-- A request that fits into the bucket of a limiter that refills is granted. -/
theorem grants_of_refills (hr : Refills rate) (hfits : n ≤ capacity rate) : Grants rate n := by
  rintro l rfl now hpast
  cases hround : consumeRound n l now with
  | done l' => exact .done hround
  | sleep l₁ time =>
    refine .sleep hround fun late => ?_
    have hl₁ : l₁.rate = l.rate := by
      obtain ⟨-, rfl, -⟩ := consumeRound_eq_sleep.mp hround
      exact refill_rate l now
    refine ends_of_measure (I := fun l' now => l'.rate = l.rate ∧ Slept n l' now) (missing n) ?_
      ⟨hl₁, slept_of_sleep hpast hround late⟩
    rintro l' now ⟨hl', hslept⟩ l'' time hsleep late
    have hl'' : l''.rate = l.rate := by
      obtain ⟨-, rfl, -⟩ := consumeRound_eq_sleep.mp hsleep
      rw [refill_rate, hl']
    exact ⟨⟨hl'', slept_of_sleep hslept.past hsleep late⟩,
      missing_lt (hl' ▸ hr) (hl' ▸ hfits) hslept hsleep late⟩

/-! ### Requests that starve -/

/-- A request that does not fit is never granted, whatever the timers do. -/
theorem not_mayEnd_of_large (hrate : l.rate ≠ 0) (hlarge : capacity l.rate < n) (now : Nat) :
    ¬ MayEnd (consumeRound n) l now := by
  intro h
  induction h with
  | @done l l' now h =>
    have hshort : (l.refill now).tokens < n :=
      Nat.lt_of_le_of_lt (refill_rate l now ▸ (l.refill now).tokens_le) hlarge
    have hsleep := consumeRound_eq_sleep.mpr ⟨hrate, rfl, hshort, rfl⟩
    rw [h] at hsleep
    cases hsleep
  | sleep h _ ih =>
    obtain ⟨-, rfl, -⟩ := consumeRound_eq_sleep.mp h
    exact ih (by rwa [refill_rate]) (by rwa [refill_rate])

/-- One token short, right after a refill or one sleep behind it: where no limiter that does not
refill comes out of. -/
structure OneShort (rate n : Nat) (l : RateLimiter) (now : Nat) : Prop where
  rate_eq : l.rate = rate
  tokens_eq : l.tokens + 1 = n
  time_eq : now = l.lastRefill ∨ now = l.lastRefill + min (waitMillis rate 1) 500 * nanosPerMilli

/-- The sleep of a limiter that is one token short brings a refill about, but no token. -/
theorem no_gain (hrate : rate ≠ 0) (hr : ¬ Refills rate) :
    100 ≤ min (waitMillis rate 1) 500 ∧ rate * min (waitMillis rate 1) 500 / 1000 = 0 := by
  have hcases : rate = 1 ∨ rate = 3 ∨ rate = 6 ∨ rate = 7 ∨ rate = 9 := by
    unfold Refills at hr
    omega
  rcases hcases with rfl | rfl | rfl | rfl | rfl <;> decide

/-- A refill keeps a limiter one token short. -/
theorem OneShort.refill (hrate : rate ≠ 0) (hr : ¬ Refills rate) (h : OneShort rate n l now) :
    OneShort rate n (l.refill now) now ∧ (l.refill now).lastRefill = now := by
  obtain ⟨rfl, htokens, htime⟩ := h
  obtain ⟨hinterval, hgain⟩ := no_gain hrate hr
  rcases htime with rfl | hwoke
  · have hearly : l.lastRefill - l.lastRefill < rateLimitInterval := by
      rw [Nat.sub_self]
      decide
    rw [refill_early hearly]
    exact ⟨⟨rfl, htokens, .inl rfl⟩, rfl⟩
  · have helapsed : now - l.lastRefill = min (waitMillis l.rate 1) 500 * nanosPerMilli := by
      rw [hwoke, Nat.add_sub_cancel_left]
    have hdue : rateLimitInterval ≤ now - l.lastRefill := by
      rw [helapsed]
      exact Nat.mul_le_mul_right _ hinterval
    obtain ⟨hlast, htok⟩ := refill_due hrate hdue
    rw [helapsed, Nat.mul_div_cancel _ (by decide), hgain, Nat.add_zero,
      Nat.min_eq_left l.tokens_le] at htok
    exact ⟨⟨refill_rate l now, htok ▸ htokens, .inl hlast.symm⟩, hlast⟩

/-- A request that is one token short starves at a rate that does not refill, when the timers
keep to what they are asked. -/
theorem not_ends_of_oneShort (hrate : rate ≠ 0) (hr : ¬ Refills rate) (h : OneShort rate n l now) :
    ¬ Ends (consumeRound n) l now := by
  refine not_ends_of_invariant (I := OneShort rate n) (fun l now h => ?_) h
  obtain ⟨⟨hrate', htokens, -⟩, hlast⟩ := h.refill hrate hr
  have hshort : (l.refill now).tokens < n := by omega
  have hdeficit : n - (l.refill now).tokens = 1 := by omega
  refine ⟨_, _, consumeRound_eq_sleep.mpr ⟨h.rate_eq ▸ hrate, rfl, hshort, rfl⟩, 0, hrate',
    htokens, .inr ?_⟩
  rw [hlast, hdeficit, h.rate_eq, Nat.add_zero, ← Nat.mul_min_mul_right]
  rfl

/-- **The limiter of a torrent** grants exactly the requests that fit into its bucket, and those
of more than nothing only at a rate that refills it. -/
theorem grants_iff (rate n : Nat) :
    Grants rate n ↔ rate = 0 ∨ n = 0 ∨ (n ≤ capacity rate ∧ Refills rate) := by
  constructor
  · intro h
    refine Classical.byContradiction fun hno => ?_
    obtain ⟨hrate, hno⟩ := not_or.mp hno
    obtain ⟨hn, hno⟩ := not_or.mp hno
    by_cases hfits : n ≤ capacity rate
    · have hr : ¬ Refills rate := fun hr => hno ⟨hfits, hr⟩
      let l : RateLimiter :=
        { rate, tokens := n - 1, lastRefill := 0,
          tokens_le := Nat.le_trans (Nat.sub_le n 1) hfits }
      have hone : OneShort rate n l 0 := ⟨rfl, Nat.succ_pred hn, .inl rfl⟩
      exact not_ends_of_oneShort hrate hr hone (h l rfl 0 (Nat.le_refl 0))
    · have hends := h (new rate 0) rfl 0 (Nat.le_refl 0)
      exact not_mayEnd_of_large hrate (Nat.not_le.mp hfits) 0 hends.mayEnd
  · rintro (rfl | rfl | ⟨hfits, hr⟩)
    · intro l hl now _
      have hdone : consumeRound n l now = .done (l.refill now) := by
        unfold consumeRound tryConsume
        dsimp only
        rw [if_pos ((refill_rate l now).trans hl)]
      exact .done hdone
    · intro l _ now _
      cases hround : consumeRound 0 l now with
      | done l' => exact .done hround
      | sleep l' time =>
        obtain ⟨-, -, hshort, -⟩ := consumeRound_eq_sleep.mp hround
        exact absurd hshort (Nat.not_lt_zero _)
    · exact grants_of_refills hr hfits

end RateLimiter

end Torrent

/-! ## Both limiters -/

/-- A video tag of 70000 bytes, up to the field behind it. -/
def longTagFront : List UInt8 := [9, 1, 17, 97] ++ List.replicate 69992 9

/-- A video tag of 70000 bytes. -/
def longTag : List UInt8 := longTagFront ++ [0, 1, 17, 108]

/-- A block of 70000 bytes. -/
def longBlock : List UInt8 := List.replicate 70000 9

theorem length_longTagFront : longTagFront.length = 69996 := by
  unfold longTagFront
  rw [List.length_append, List.length_replicate]
  decide

theorem length_longTag : longTag.length = 70000 := by
  unfold longTag
  rw [List.length_append, length_longTagFront]
  decide

theorem byteAt_append (xs ys : List UInt8) (i : Nat) :
    Flv.byteAt (xs ++ ys) (xs.length + i) = Flv.byteAt ys i := by
  unfold Flv.byteAt
  rw [List.getD_eq_getElem?_getD, List.getElem?_append_right (Nat.le_add_right _ i),
    Nat.add_sub_cancel_left, List.getD_eq_getElem?_getD]

theorem be32_append (xs ys : List UInt8) : Flv.be32 (xs ++ ys) xs.length = Flv.be32 ys 0 := by
  have hfirst : Flv.byteAt (xs ++ ys) xs.length = Flv.byteAt ys 0 := byteAt_append xs ys 0
  unfold Flv.be32 Flv.be24
  rw [hfirst, Nat.add_assoc, Nat.add_assoc, byteAt_append, byteAt_append, byteAt_append]

/-- The long tag is whole. -/
theorem isTag_longTag : Flv.IsTag longTag := by
  have hsize : Flv.be24 longTag 1 = 69985 := by decide
  have hback : Flv.be32 longTag longTagFront.length = Flv.be32 [0, 1, 17, 108] 0 :=
    be32_append longTagFront [0, 1, 17, 108]
  rw [length_longTagFront] at hback
  refine ⟨Flv.tagLen_eq ?_, ?_⟩
  · rw [length_longTag, hsize]
  · rw [hsize]
    exact hback.trans (by decide)

theorem length_encode_piece (index begin : UInt32) (block : List UInt8) :
    (Bt.Message.piece index begin block).encode.length = 13 + block.length := by
  have hfour : ∀ x, (BigEndian.ofU32 x).length = 4 := fun _ => rfl
  unfold Bt.Message.encode
  simp only [Bt.Message.id, Bt.Message.body, List.length_append, List.length_cons, hfour]
  omega

/-- A first message that is read is the first of the messages that are. -/
theorem readMessages_one {r r' : Bt.PeerReader} {stream stream' : List (List UInt8)}
    {res : Except Bt.IoError (Option Bt.Message)} (h : r.readMessage stream = (res, r', stream')) :
    r.readMessages stream 1 = [res] := by
  unfold Bt.PeerReader.readMessages
  rw [h]
  rfl

end XferRust.Rate
