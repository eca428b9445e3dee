import Mathlib.Data.Rat.Floor
import Mathlib.Tactic.Linarith

/-!
# The token bucket clock

`tokenbucket/clock.go`, statement for statement. Go computes in `float64`;
here a token count, a rate and a wait are rationals, so every comparison
the code makes is made exactly. `NaN` and the infinities, which
`validateClock` refuses, have no counterpart and their test disappears
with them. Unix microseconds and durations are integers; a `Duration` is a
count of nanoseconds, as in Go, and converting a wait to one can leave the
range of its 64 bits (`toDuration`).

A clock the constructors would build is an `AcceptedClock`: the settings
together with the fact that `validateClock` let them through, so nothing
below has to re-derive that the rate is positive or the burst at least one.
-/

namespace MiddlewareUtils.TokenBucket

/-- The errors of `validateClock`, in the order it tests for them. -/
inductive ClockError where
  | rate
  | burst
  | delay
  | ttl
  deriving DecidableEq, Repr

def ClockError.text : ClockError → String
  | .rate => "tokenbucket: rate must be greater than 0"
  | .burst => "tokenbucket: burst must be at least 1"
  | .delay => "tokenbucket: maxDelay must not be negative"
  | .ttl => "tokenbucket: ttl must be a whole number of seconds (at least 1s)"

/-- `time.Microsecond` and `time.Second`, in nanoseconds. -/
def microsecond : ℤ := 1000

def second : ℤ := 1000000000

/-- Rate in requests per second, burst, and the two durations, shared by
both stores. -/
structure ClockConfig where
  rate : ℚ
  burst : ℤ
  maxDelay : ℤ
  ttl : ℤ

def validateClock (rate : ℚ) (burst maxDelay ttl : ℤ) : Except ClockError Unit :=
  if rate ≤ 0 then .error .rate
  else if burst < 1 then .error .burst
  else if maxDelay < 0 then .error .delay
  else if ttl < second ∨ ttl.tmod second ≠ 0 then .error .ttl
  else .ok ()

/-- A clock `NewMemory` or `NewRedis` accepted. -/
structure AcceptedClock extends ClockConfig where
  accepted : validateClock rate burst maxDelay ttl = .ok ()

namespace ClockConfig

/-- Tokens per microsecond. -/
def limitPerMicro (c : ClockConfig) : ℚ := c.rate / 1000000

/-- The Redis `EXPIRE` argument. -/
def ttlSeconds (c : ClockConfig) : ℤ := c.ttl.tdiv second

/-- `maxDelay.Microseconds()`, which truncates towards zero. -/
def maxDelayMicro (c : ClockConfig) : ℤ := c.maxDelay.tdiv microsecond

end ClockConfig

/-- The stored half of a bucket: tokens and the Unix microsecond they were
last brought up to date. -/
structure Bucket where
  tokens : ℚ
  last : ℤ
  deriving DecidableEq

/-- What one `consumeOne` answers: the bucket to store and the wait. -/
structure Consumed where
  bucket : Bucket
  waitMicro : ℚ
  deriving DecidableEq

/-- Tokens at `nowMicro`, capped at `burst`. A reading older than `last`
is clamped to an elapsed time of zero. -/
def refill (b : Bucket) (limitPerMicro burst : ℚ) (nowMicro : ℤ) : ℚ :=
  let last := if nowMicro < b.last then nowMicro else b.last
  let tokens := b.tokens + limitPerMicro * ((nowMicro - last : ℤ) : ℚ)
  if tokens > burst then burst else tokens

/-- One consume. The branch on `waitMicro > maxDelayMicro` is the refund:
the token goes back and the caller learns the wait it was refused for. -/
def consumeOne (b : Bucket) (limitPerMicro burst : ℚ)
    (nowMicro maxDelayMicro : ℤ) : Consumed :=
  let tokens := refill b limitPerMicro burst nowMicro - 1
  let persistLast := if b.last > nowMicro then b.last else nowMicro
  if tokens < 0 then
    let waitMicro := -tokens / limitPerMicro
    if waitMicro > (maxDelayMicro : ℚ) then
      let refunded := tokens + 1
      ⟨⟨if refunded > burst then burst else refunded, persistLast⟩, waitMicro⟩
    else ⟨⟨tokens, persistLast⟩, waitMicro⟩
  else ⟨⟨tokens, persistLast⟩, 0⟩

/-- The refund branch is not the one taken, so the token stays consumed. -/
def kept (b : Bucket) (limitPerMicro burst : ℚ)
    (nowMicro maxDelayMicro : ℤ) : Bool :=
  let tokens := refill b limitPerMicro burst nowMicro - 1
  !(decide (tokens < 0) && decide (-tokens / limitPerMicro > (maxDelayMicro : ℚ)))

/-- The first value beyond the range of an `int64`. -/
def int64Limit : ℤ := 2 ^ 63

/-- `time.Duration(x)` of a `float64` that is not negative. Go truncates; what
a value out of range becomes it leaves to the platform, and amd64 makes it the
smallest `int64`. -/
def toDuration (x : ℚ) : ℤ := if x < int64Limit then ⌊x⌋ else -int64Limit

def waitDuration (waitMicro : ℚ) : ℤ :=
  if waitMicro ≤ 0 then 0 else toDuration (waitMicro * microsecond)

def allowedFromWait (wait maxDelay : ℤ) : Bool := decide (wait ≤ maxDelay)

namespace AcceptedClock

variable (c : AcceptedClock)

theorem bounds : 0 < c.rate ∧ 1 ≤ c.burst ∧ 0 ≤ c.maxDelay ∧
    second ≤ c.ttl ∧ c.ttl.tmod second = 0 := by
  have h := c.accepted
  unfold validateClock at h
  split at h
  · cases h
  next hr =>
    split at h
    · cases h
    next hb =>
      split at h
      · cases h
      next hd =>
        split at h
        · cases h
        next ht =>
          push Not at hr hb hd ht
          exact ⟨hr, by omega, hd, ht.1, ht.2⟩

theorem limitPerMicro_pos : 0 < c.limitPerMicro := by
  have h := c.bounds.1
  unfold ClockConfig.limitPerMicro
  positivity

theorem one_le_burst : (1 : ℚ) ≤ c.burst := by
  exact_mod_cast c.bounds.2.1

theorem maxDelayMicro_nonneg : 0 ≤ c.maxDelayMicro :=
  Int.tdiv_nonneg c.bounds.2.2.1 (by decide)

end AcceptedClock

/-! ## One consume, read back

An answer has two shapes: the token stayed consumed and the wait is the
time until the count is back at zero, or it was refunded and what is stored
is the refilled bucket. -/

section Consume

variable {b : Bucket} {limitPerMicro burst : ℚ} {nowMicro maxDelayMicro : ℤ}

/-- The clamp and the persisted `last` agree on one elapsed time: from the
stored `last` to the later of it and the reading. -/
theorem refill_eq :
    refill b limitPerMicro burst nowMicro =
      min burst (b.tokens + limitPerMicro * ((max b.last nowMicro - b.last : ℤ) : ℚ)) := by
  have hel : nowMicro - (if nowMicro < b.last then nowMicro else b.last) =
      max b.last nowMicro - b.last := by
    split <;> omega
  simp only [refill, hel]
  split
  next hgt => rw [min_eq_left (le_of_lt hgt)]
  next hle => rw [min_eq_right (not_lt.mp hle)]

theorem refill_le_burst : refill b limitPerMicro burst nowMicro ≤ burst := by
  simp only [refill]
  split_ifs with h₁ h₂ h₂
  · exact le_refl _
  · exact not_lt.mp h₂
  · exact le_refl _
  · exact not_lt.mp h₂

theorem consumeOne_last :
    (consumeOne b limitPerMicro burst nowMicro maxDelayMicro).bucket.last =
      max b.last nowMicro := by
  simp only [consumeOne]
  split_ifs <;> dsimp only <;> omega

theorem consumeOne_of_kept (hr : 0 < limitPerMicro)
    (h : kept b limitPerMicro burst nowMicro maxDelayMicro = true) :
    (consumeOne b limitPerMicro burst nowMicro maxDelayMicro).bucket.tokens =
        refill b limitPerMicro burst nowMicro - 1 ∧
      (consumeOne b limitPerMicro burst nowMicro maxDelayMicro).waitMicro =
        max 0 (-(refill b limitPerMicro burst nowMicro - 1) / limitPerMicro) := by
  simp only [kept, Bool.not_eq_true', Bool.and_eq_false_iff, decide_eq_false_iff_not] at h
  rw [consumeOne]
  dsimp only
  by_cases hneg : refill b limitPerMicro burst nowMicro - 1 < 0
  · rw [if_pos hneg, if_neg (h.resolve_left (not_not_intro hneg))]
    refine ⟨rfl, (max_eq_right ?_).symm⟩
    exact div_nonneg (by linarith) (le_of_lt hr)
  · rw [if_neg hneg]
    refine ⟨rfl, (max_eq_left ?_).symm⟩
    exact div_nonpos_of_nonpos_of_nonneg (by linarith) (le_of_lt hr)

theorem consumeOne_of_refunded
    (h : kept b limitPerMicro burst nowMicro maxDelayMicro = false) :
    (consumeOne b limitPerMicro burst nowMicro maxDelayMicro).bucket.tokens =
      refill b limitPerMicro burst nowMicro := by
  simp only [kept, Bool.not_eq_false', Bool.and_eq_true, decide_eq_true_eq] at h
  simp only [consumeOne]
  rw [if_pos h.1, if_pos h.2]
  dsimp only
  rw [sub_add_cancel, if_neg (not_lt.mpr refill_le_burst)]

theorem wait_le_of_kept (hd : 0 ≤ maxDelayMicro)
    (h : kept b limitPerMicro burst nowMicro maxDelayMicro = true) :
    max 0 (-(refill b limitPerMicro burst nowMicro - 1) / limitPerMicro) ≤
      (maxDelayMicro : ℚ) ∨ 0 ≤ refill b limitPerMicro burst nowMicro - 1 := by
  simp only [kept, Bool.not_eq_true', Bool.and_eq_false_iff, decide_eq_false_iff_not] at h
  rcases h with h | h
  · exact .inr (not_lt.mp h)
  · exact .inl (max_le (by exact_mod_cast hd) (not_lt.mp h))

end Consume

end MiddlewareUtils.TokenBucket
