import XferRust.Lib.StepRun
import XferRust.Lib.TokenBucket
import XferRust.Rate.Limiters

/-! # What the shared limiter lets through

The limiter of all the HTTP downloads with the callers that wait for it.  The tokens are rational
numbers in place of the source's floating point ones; times are nanoseconds and never go back.  A
caller that was refused sleeps and looks again, any time later, and a caller may be given up while
it sleeps.

While the rate stays above zero, what is granted in any interval is bounded by one full bucket and
what flows in (`granted_le`), and the bucket never goes below zero.
-/
namespace XferRust.Rate.Exact
open StepRun
open TokenBucket (Account)

/-! ## The limiter -/

/-- `Bucket`. -/
structure Bucket where
  tokens : ℚ
  last : Nat
  deriving DecidableEq

structure RateLimiter where
  rate : Nat
  state : Bucket
  deriving DecidableEq

namespace RateLimiter

def new (rate now : Nat) : RateLimiter := { rate, state := { tokens := minBurst, last := now } }

def setRate (l : RateLimiter) (rate : Nat) : RateLimiter := { l with rate }

end RateLimiter

/-- `as_secs_f64`. -/
def seconds (nanos : Nat) : ℚ := nanos / nanosPerSecond

/-- `rate.max(MIN_BURST)`. -/
def capacity (rate : Nat) : ℚ := max rate minBurst

/-- A round of the loop in `acquire`: the limiter behind it, and the seconds to sleep where the
tokens are not enough. -/
def acquireRound (l : RateLimiter) (n now : Nat) : RateLimiter × Option ℚ :=
  if (l.rate : ℚ) ≤ 0 then (l, none)
  else
    let elapsed := seconds (now - l.state.last)
    let tokens := min (l.state.tokens + elapsed * l.rate) (capacity l.rate)
    if n ≤ tokens then ({ l with state := { tokens := tokens - n, last := now } }, none)
    else
      let deficit := n - tokens
      ({ l with state := { tokens, last := now } },
        some (min (max (min (deficit / l.rate) 1) (1 / 1000)) (1 / 20)))

/-! ## The limiter and its callers -/

/-- The limiter, the time, and the calls that sleep, each with what it asks for. -/
structure System where
  limiter : RateLimiter
  clock : Nat
  sleeping : List (Nat × Nat)
  deriving DecidableEq

inductive Event
  | setRate (rate now : Nat)
  /-- A caller asks for `n` bytes. -/
  | acquire (caller n now : Nat)
  /-- A caller that slept looks again. -/
  | wake (caller now : Nat)
  /-- A caller that sleeps is given up. -/
  | drop (caller now : Nat)

/-- When it happens. -/
def Event.time : Event → Nat
  | .setRate _ now => now
  | .acquire _ _ now => now
  | .wake _ now => now
  | .drop _ now => now

namespace System

/-- The system of a new limiter. -/
def new (rate now : Nat) : System :=
  { limiter := .new rate now, clock := now, sleeping := [] }

/-- A round for the caller, who sleeps if it is refused. -/
def look (s : System) (caller n now : Nat) : System :=
  let rest := s.sleeping.filter fun c => c.1 ≠ caller
  match acquireRound s.limiter n now with
  | (limiter, none) => { limiter, clock := now, sleeping := rest }
  | (limiter, some _) => { limiter, clock := now, sleeping := (caller, n) :: rest }

def step (s : System) (e : Event) : Option System :=
  if e.time < s.clock then none
  else
    match e with
    | .setRate rate now => some { s with limiter := s.limiter.setRate rate, clock := now }
    | .acquire caller n now =>
      if (s.sleeping.lookup caller).isSome then none
      else if n = 0 then some { s with clock := now }
      else some (s.look caller n now)
    | .wake caller now => (s.sleeping.lookup caller).map fun n => s.look caller n now
    | .drop caller now =>
      some { s with clock := now, sleeping := s.sleeping.filter fun c => c.1 ≠ caller }

/-- What a round grants. -/
def grant (s : System) (n now : Nat) : Nat :=
  if (acquireRound s.limiter n now).2 = none then n else 0

/-- What an event grants. -/
def granted (s : System) : Event → Nat
  | .acquire _ n now => s.grant n now
  | .wake caller now => ((s.sleeping.lookup caller).map fun n => s.grant n now).getD 0
  | _ => 0

/-- What the events grant, as far as they happen. -/
def grantedAlong (s : System) : List Event → Nat
  | [] => 0
  | e :: es => ((s.step e).map fun s' => s.granted e + s'.grantedAlong es).getD 0

end System

/-! ## A round -/

/-- The bucket as one of rational time. -/
def RateLimiter.bucket (l : RateLimiter) : TokenBucket.Bucket ℚ :=
  ⟨l.state.tokens, seconds l.state.last⟩

/-- The bucket with what it has gained. -/
def RateLimiter.refilled (l : RateLimiter) (now : Nat) : TokenBucket.Bucket ℚ :=
  l.bucket.refill l.rate (capacity l.rate) (seconds now)

theorem seconds_le {a b : Nat} (h : a ≤ b) : seconds a ≤ seconds b := by
  unfold seconds
  have hcast : (a : ℚ) ≤ b := Nat.cast_le.mpr h
  exact div_le_div_of_nonneg_right hcast (Nat.cast_nonneg _)

theorem seconds_sub {a b : Nat} (h : a ≤ b) : seconds (b - a) = seconds b - seconds a := by
  unfold seconds
  rw [Nat.cast_sub h, sub_div]

theorem capacity_nonneg (rate : Nat) : 0 ≤ capacity rate :=
  le_trans (Nat.cast_nonneg rate) (le_max_left _ _)

/-- Without a limit a round looks at nothing. -/
theorem acquireRound_unlimited {l : RateLimiter} (hrate : l.rate = 0) (n now : Nat) :
    acquireRound l n now = (l, none) := by
  unfold acquireRound
  rw [hrate, Nat.cast_zero, if_pos (le_refl 0)]

variable {n now rate spent start stop : Nat} {s s' : System} {e : Event}

/-- **A round** refills the bucket, and takes what is asked for where it is there. -/
theorem acquireRound_cases {l : RateLimiter} (hrate : 0 < l.rate) (hnow : l.state.last ≤ now)
    (n : Nat) :
    (acquireRound l n now).1.rate = l.rate ∧ (acquireRound l n now).1.state.last = now ∧
      (((acquireRound l n now).2 = none ∧ (n : ℚ) ≤ (l.refilled now).tokens ∧
          (acquireRound l n now).1.bucket = (l.refilled now).take n) ∨
        ((acquireRound l n now).2 ≠ none ∧
          (acquireRound l n now).1.bucket = l.refilled now)) := by
  have hlimited : ¬ (l.rate : ℚ) ≤ 0 := not_le.mpr (Nat.cast_pos.mpr hrate)
  have htokens : min (l.state.tokens + seconds (now - l.state.last) * l.rate) (capacity l.rate) =
      (l.refilled now).tokens := by
    rw [seconds_sub hnow]
    rfl
  unfold acquireRound
  rw [if_neg hlimited]
  dsimp only
  rw [htokens]
  by_cases henough : (n : ℚ) ≤ (l.refilled now).tokens
  · rw [if_pos henough]
    exact ⟨rfl, rfl, .inl ⟨rfl, henough, rfl⟩⟩
  · rw [if_neg henough]
    exact ⟨rfl, rfl, .inr ⟨nofun, rfl⟩⟩

/-! ### The bucket in billionths -/

/-- The bucket whose tokens are counted in billionths. -/
def ofBillionths (b : Shared.Bucket) : Bucket := { tokens := seconds b.tokens, last := b.last }

theorem seconds_refill (b : Shared.Bucket) (rate now : Nat) :
    min (seconds b.tokens + seconds (now - b.last) * rate) (capacity rate) =
      seconds (b.refill rate now).tokens := by
  have hflow : seconds b.tokens + seconds (now - b.last) * rate =
      seconds (b.tokens + (now - b.last) * rate) := by
    unfold seconds
    rw [Nat.cast_add, Nat.cast_mul, add_div, div_mul_eq_mul_div]
  have hcap : capacity rate = seconds (Shared.capacity rate) := by
    have hnanos : ((nanosPerSecond : Nat) : ℚ) ≠ 0 := by norm_num [nanosPerSecond]
    unfold seconds Shared.capacity capacity
    rw [Nat.cast_mul, Nat.cast_max, mul_div_cancel_right₀ _ hnanos]
  have hmono : Monotone seconds := fun _ _ h => seconds_le h
  rw [hflow, hcap, ← hmono.map_min]
  rfl

/-- A rational round at a rate above zero, of a bucket that is counted in billionths. -/
theorem acquireRound_ofBillionths (hrate : rate ≠ 0) (n now : Nat) (b : Shared.Bucket) :
    acquireRound ⟨rate, ofBillionths b⟩ n now =
      if (n : ℚ) ≤ seconds (b.refill rate now).tokens then
        (⟨rate, ⟨seconds (b.refill rate now).tokens - n, now⟩⟩, none)
      else
        (⟨rate, ⟨seconds (b.refill rate now).tokens, now⟩⟩,
          some (min (max (min ((n - seconds (b.refill rate now).tokens) / rate) 1) (1 / 1000))
            (1 / 20))) := by
  have hlimited : ¬ ((rate : Nat) : ℚ) ≤ 0 :=
    not_le.mpr (Nat.cast_pos.mpr (Nat.pos_of_ne_zero hrate))
  unfold acquireRound ofBillionths
  dsimp only
  rw [if_neg hlimited, seconds_refill]

theorem le_seconds_iff {tokens : Nat} : (n : ℚ) ≤ seconds tokens ↔ n * nanosPerSecond ≤ tokens := by
  have hpos : (0 : ℚ) < nanosPerSecond := by norm_num [nanosPerSecond]
  unfold seconds
  rw [le_div_iff₀ hpos, ← Nat.cast_mul, Nat.cast_le]

theorem seconds_taken {tokens : Nat} (h : n * nanosPerSecond ≤ tokens) :
    seconds (tokens - n * nanosPerSecond) = seconds tokens - n := by
  have hne : ((nanosPerSecond : Nat) : ℚ) ≠ 0 := by norm_num [nanosPerSecond]
  have hn : seconds (n * nanosPerSecond) = n := by
    unfold seconds
    rw [Nat.cast_mul, mul_div_cancel_right₀ _ hne]
  rw [seconds_sub h, hn]

/-- **The rational round grants what the one in billionths grants**, and leaves the same bucket. -/
theorem acquireRound_done {b b' : Shared.Bucket} (h : Shared.acquireRound rate n b now = .done b') :
    acquireRound ⟨rate, ofBillionths b⟩ n now = (⟨rate, ofBillionths b'⟩, none) := by
  unfold Shared.acquireRound at h
  split at h
  · rename_i hrate
    cases h
    exact acquireRound_unlimited hrate n now
  · rename_i hrate
    dsimp only at h
    split at h
    · rename_i hfits
      cases h
      rw [acquireRound_ofBillionths hrate, if_pos (le_seconds_iff.mpr hfits),
        ← seconds_taken hfits]
      rfl
    · cases h

/-- It refuses what that one refuses. -/
theorem acquireRound_sleep {time : Nat} {b b' : Shared.Bucket}
    (h : Shared.acquireRound rate n b now = .sleep b' time) :
    ∃ secs, acquireRound ⟨rate, ofBillionths b⟩ n now = (⟨rate, ofBillionths b'⟩, some secs) := by
  unfold Shared.acquireRound at h
  split at h
  · cases h
  · rename_i hrate
    dsimp only at h
    split at h
    · cases h
    · rename_i hshort
      cases h
      rw [acquireRound_ofBillionths hrate, if_neg fun hle => hshort (le_seconds_iff.mp hle)]
      exact ⟨_, rfl⟩

/-! ## Every run -/

/-- The bucket is not below zero, and was last looked at in the past. -/
structure Sane (s : System) : Prop where
  tokens : 0 ≤ s.limiter.state.tokens
  last : s.limiter.state.last ≤ s.clock

theorem sane_new (rate now : Nat) : Sane (.new rate now) where
  tokens := Nat.cast_nonneg _
  last := Nat.le_refl now

/-- The limiter behind a look is that of the round. -/
theorem System.look_eq (s : System) (caller n now : Nat) :
    (s.look caller n now).limiter = (acquireRound s.limiter n now).1 ∧
      (s.look caller n now).clock = now := by
  unfold System.look
  dsimp only
  split
  · rename_i l h
    rw [h]
    exact ⟨rfl, rfl⟩
  · rename_i l secs h
    rw [h]
    exact ⟨rfl, rfl⟩

theorem Sane.look (h : Sane s) (caller n : Nat) (hnow : s.clock ≤ now) :
    Sane (s.look caller n now) := by
  obtain ⟨hlimiter, hclock⟩ := s.look_eq caller n now
  have hpast := Nat.le_trans h.last hnow
  rcases Nat.eq_zero_or_pos s.limiter.rate with hzero | hpos
  · rw [acquireRound_unlimited hzero] at hlimiter
    exact ⟨hlimiter ▸ h.tokens, by rw [hlimiter, hclock]; exact hpast⟩
  · obtain ⟨-, hlast, hcases⟩ := acquireRound_cases hpos hpast n
    have hrefill : 0 ≤ (s.limiter.refilled now).tokens :=
      TokenBucket.Bucket.refill_nonneg (Nat.cast_nonneg _) (capacity_nonneg _) h.tokens
        (seconds_le hpast)
    refine ⟨?_, by rw [hlimiter, hclock, hlast]⟩
    rw [hlimiter]
    rcases hcases with ⟨-, henough, hbucket⟩ | ⟨-, hbucket⟩
    · have htokens := congrArg TokenBucket.Bucket.tokens hbucket
      exact (sub_nonneg.mpr henough).trans_eq htokens.symm
    · have htokens := congrArg TokenBucket.Bucket.tokens hbucket
      exact hrefill.trans_eq htokens.symm

/-- What an event does: it leaves the bucket and the rate alone, sets the rate, or is a round. -/
theorem System.step_cases (h : s.step e = some s') :
    s.clock ≤ e.time ∧ s'.clock = e.time ∧
      ((s'.limiter = s.limiter ∧ s.granted e = 0) ∨
        (∃ rate now, e = .setRate rate now ∧ s'.limiter = s.limiter.setRate rate) ∨
        ∃ caller n, s' = s.look caller n e.time ∧ s.granted e = s.grant n e.time) := by
  unfold System.step at h
  split at h
  · cases h
  · rename_i htime
    refine ⟨Nat.le_of_not_lt htime, ?_⟩
    cases e with
    | setRate rate now =>
      cases h
      exact ⟨rfl, .inr (.inl ⟨rate, now, rfl, rfl⟩)⟩
    | acquire caller n now =>
      dsimp only at h
      split at h
      · cases h
      · split at h
        · rename_i hzero
          cases h
          refine ⟨rfl, .inl ⟨rfl, ?_⟩⟩
          rw [hzero]
          exact ite_self 0
        · cases h
          exact ⟨(s.look_eq caller n now).2, .inr (.inr ⟨caller, n, rfl, rfl⟩)⟩
    | wake caller now =>
      obtain ⟨n, hn, rfl⟩ := Option.map_eq_some_iff.mp h
      refine ⟨(s.look_eq caller n now).2, .inr (.inr ⟨caller, n, rfl, ?_⟩)⟩
      show ((s.sleeping.lookup caller).map fun n => s.grant n now).getD 0 = s.grant n now
      rw [hn]
      rfl
    | drop caller now =>
      cases h
      exact ⟨rfl, .inl ⟨rfl, rfl⟩⟩

theorem Sane.step (h : Sane s) (hstep : s.step e = some s') : Sane s' := by
  obtain ⟨htime, hclock, ⟨hsame, -⟩ | ⟨rate, now, -, hset⟩ | ⟨caller, n, rfl, -⟩⟩ :=
    System.step_cases hstep
  · exact ⟨hsame ▸ h.tokens, by rw [hsame, hclock]; exact Nat.le_trans h.last htime⟩
  · refine ⟨by rw [hset]; exact h.tokens, ?_⟩
    rw [hset, hclock]
    exact Nat.le_trans h.last htime
  · exact h.look caller n htime

/-! ## An interval -/

/-- An event of the interval: it happens between `start` and `stop`, and keeps the rate. -/
def Within (rate start stop : Nat) (e : Event) : Prop :=
  start ≤ e.time ∧ e.time ≤ stop ∧ ∀ rate' now, e = .setRate rate' now → rate' = rate

/-- **The invariant of an interval**: nothing was granted yet, or the account of the bucket says
where it came from. -/
def Metered (rate start stop : Nat) (s : System) (spent : Nat) : Prop :=
  s.limiter.rate = rate ∧ Sane s ∧
    (spent = 0 ∨ (Account (rate : ℚ) (capacity rate) (seconds start) s.limiter.bucket spent ∧
      s.limiter.state.last ≤ stop))

theorem Metered.step (hrate : 0 < rate) (h : Metered rate start stop s spent)
    (hin : Within rate start stop e) (hstep : s.step e = some s') :
    Metered rate start stop s' (spent + s.granted e) := by
  obtain ⟨hr, hsane, haccount⟩ := h
  obtain ⟨hlo, hhi, hkeep⟩ := hin
  have hsane' := hsane.step hstep
  obtain ⟨htime, hclock, ⟨hsame, hzero⟩ | ⟨r, now, rfl, hset⟩ | ⟨caller, n, rfl, hgrant⟩⟩ :=
    System.step_cases hstep
  · rw [hzero, Nat.add_zero]
    exact ⟨hsame ▸ hr, hsane', by rw [hsame]; exact haccount⟩
  · have hno : s.granted (.setRate r now) = 0 := rfl
    obtain rfl := hkeep r now rfl
    rw [hno, Nat.add_zero]
    refine ⟨by rw [hset]; rfl, hsane', ?_⟩
    rw [hset]
    exact haccount
  · obtain ⟨hlimiter, -⟩ := s.look_eq caller n e.time
    have hpast := Nat.le_trans hsane.last htime
    obtain ⟨hrate', hlast, hcases⟩ := acquireRound_cases (hr ▸ hrate) hpast n
    -- the look opens the account, or carries it on
    have hrefill : Account (rate : ℚ) (capacity rate) (seconds start) (s.limiter.refilled e.time)
        spent := by
      unfold RateLimiter.refilled
      rw [hr]
      rcases haccount with rfl | ⟨hopen, -⟩
      · rw [Nat.cast_zero]
        exact TokenBucket.account_refill (Nat.cast_nonneg _) _ (seconds_le hlo)
      · exact hopen.refill (seconds_le hpast)
    refine ⟨by rw [hlimiter, hrate', hr], hsane', .inr ⟨?_, by rw [hlimiter, hlast]; exact hhi⟩⟩
    rw [hlimiter, hgrant]
    unfold System.grant
    rcases hcases with ⟨hnone, -, hbucket⟩ | ⟨hsome, hbucket⟩
    · rw [if_pos hnone, hbucket, Nat.cast_add]
      exact hrefill.take n
    · rw [if_neg hsome, hbucket, Nat.add_zero]
      exact hrefill

theorem Metered.spent_le (hle : start ≤ stop) (h : Metered rate start stop s spent) :
    (spent : ℚ) ≤ capacity rate + seconds (stop - start) * rate := by
  obtain ⟨-, hsane, haccount⟩ := h
  rw [seconds_sub hle]
  rcases haccount with rfl | ⟨haccount, hlast⟩
  · rw [Nat.cast_zero]
    exact add_nonneg (capacity_nonneg rate)
      (mul_nonneg (sub_nonneg.mpr (seconds_le hle)) (Nat.cast_nonneg rate))
  · exact haccount.spent_le (Nat.cast_nonneg rate) hsane.tokens (seconds_le hlast)

/-- What the events of an interval grant. -/
theorem Metered.grantedAlong_le (hrate : 0 < rate) (hle : start ≤ stop) {es : List Event}
    (h : Metered rate start stop s spent) (hin : ∀ e ∈ es, Within rate start stop e) :
    ((spent + s.grantedAlong es : Nat) : ℚ) ≤ capacity rate + seconds (stop - start) * rate := by
  induction es generalizing s spent with
  | nil => exact h.spent_le hle
  | cons e es ih =>
    obtain ⟨he, hes⟩ := List.forall_mem_cons.mp hin
    unfold System.grantedAlong
    cases hstep : s.step e with
    | none => exact h.spent_le hle
    | some s' =>
      have hrest := ih (h.step hrate he hstep) hes
      rw [Nat.add_assoc] at hrest
      exact hrest

/-- **The bound of the token bucket.**  In every run of the limiter, whoever asks, whenever, for
however much, and however the rate is set: what is granted in an interval in which the rate stays
`rate` is no more than a full bucket and what flows in; and the bucket is never below zero. -/
theorem granted_le (rate₀ now₀ : Nat) (es : List Event) :
    (∀ before during after s rate start stop, es = before ++ during ++ after →
      run System.step (.new rate₀ now₀) before = some s → s.limiter.rate = rate → 0 < rate →
      start ≤ stop → (∀ e ∈ during, Within rate start stop e) →
        (s.grantedAlong during : ℚ) ≤
          max (rate : ℚ) (64 * 1024) + rate * (((stop : ℚ) - start) / 1000000000)) ∧
      Everywhere System.step (fun s => 0 ≤ s.limiter.state.tokens) (.new rate₀ now₀) es := by
  have hkeep : ∀ s e s', Sane s → True → System.step s e = some s' → Sane s' :=
    fun _ _ _ h _ hstep => h.step hstep
  have hall : Everywhere System.step Sane (.new rate₀ now₀) es :=
    everywhere_of_along (fun _ h => h) hkeep (sane_new rate₀ now₀)
      (along_of_forall fun _ _ => trivial)
  refine ⟨?_, fun n u hu => (hall n u hu).tokens⟩
  rintro before during after s rate start stop rfl hrun hrate hpos hle hin
  have hsane : Sane s :=
    run_invariant hkeep (sane_new rate₀ now₀) (along_of_forall fun _ _ => trivial) hrun
  have hbound := Metered.grantedAlong_le hpos hle
    (show Metered rate start stop s 0 from ⟨hrate, hsane, .inl rfl⟩) hin
  have hflow : seconds (stop - start) = ((stop : ℚ) - start) / 1000000000 := by
    unfold seconds
    rw [Nat.cast_sub hle]
    rfl
  have hcap : capacity rate = max (rate : ℚ) (64 * 1024) := by
    have hburst : ((minBurst : Nat) : ℚ) = 64 * 1024 := by norm_num [minBurst]
    rw [capacity, hburst]
  rw [Nat.zero_add, hflow, hcap] at hbound
  rw [mul_comm (rate : ℚ)]
  exact hbound

/-- A limiter of 1000 bytes a second whose bucket was emptied: of the next half second it grants the
500 bytes that flow in. -/
theorem granted_half_second :
    (((System.new 1000 0).look 1 65536 0).grantedAlong
        [.acquire 2 500 0, .wake 2 500000000] : ℚ) ≤
      max ((1000 : Nat) : ℚ) (64 * 1024) +
        ((1000 : Nat) : ℚ) * ((((500000000 : Nat) : ℚ) - (0 : Nat)) / 1000000000) :=
  (granted_le 1000 0 [.acquire 1 65536 0, .acquire 2 500 0, .wake 2 500000000]).1
    [.acquire 1 65536 0] [.acquire 2 500 0, .wake 2 500000000] [] _ 1000 0 500000000 rfl
    (by decide +kernel) (by decide +kernel) (by decide) (by decide)
    (by
      intro e he
      rcases List.mem_cons.mp he with rfl | he
      · exact ⟨by decide, by decide, fun _ _ h => (by cases h)⟩
      · rw [List.mem_singleton.mp he]
        exact ⟨by decide, by decide, fun _ _ h => (by cases h)⟩)

end XferRust.Rate.Exact
