import MiddlewareUtils.Lib.Conformance
import MiddlewareUtils.TokenBucket.Clock

/-!
# The token bucket's output conforms to (burst, rate)

One bucket, any number of consumes at readings that do not go back. A kept
call departs at its reading plus the wait it was told; a refunded one does
not depart at all. Conformance speaks of every stretch of departures, so it
is shown by a potential rather than call by call.

The potential is the backlog `limitPerMicro * last - tokens`, in tokens: the
level at which the bucket would next be empty. Refilling leaves it alone
unless the cap bites, and the cap only raises it; a kept consume raises it
by one; a refund leaves it where the refill did. So it climbs by at least
one from each kept call to the next, whatever was refunded in between. A
departure is the later of the reading and the backlog, and the cap keeps
the backlog within `burst - 1` of it, which is all `conforms_of_schedule`
wants.
-/

namespace MiddlewareUtils.TokenBucket

open Lib

/-- One call of a run: its reading, what it answered, and whether the
token stayed consumed. -/
structure Call where
  now : ℤ
  answer : Consumed
  keptToken : Bool

/-- When the call's request leaves: the reading plus the wait. -/
def Call.departure (x : Call) : ℚ := x.now + x.answer.waitMicro

namespace ClockConfig

/-- A bucket as `Allow` seeds it: full, up to date at its first reading. -/
def full (c : ClockConfig) (t : ℤ) : Bucket := ⟨c.burst, t⟩

def consume (c : ClockConfig) (b : Bucket) (t : ℤ) : Call :=
  ⟨t, consumeOne b c.limitPerMicro c.burst t c.maxDelayMicro,
    kept b c.limitPerMicro c.burst t c.maxDelayMicro⟩

/-- The calls of a run on one live bucket, each on the bucket the one
before it stored. -/
def consumeAll (c : ClockConfig) : Bucket → List ℤ → List Call
  | _, [] => []
  | b, t :: ts => c.consume b t :: c.consumeAll (c.consume b t).answer.bucket ts

end ClockConfig

variable {c : AcceptedClock}

def backlog (c : ClockConfig) (b : Bucket) : ℚ := c.limitPerMicro * b.last - b.tokens

structure BucketInv (c : ClockConfig) (b : Bucket) : Prop where
  low : -(c.limitPerMicro * c.maxDelayMicro) ≤ b.tokens
  high : b.tokens ≤ c.burst

theorem bucketInv_full (t : ℤ) : BucketInv c.toClockConfig (c.full t) := by
  have hr := c.limitPerMicro_pos
  have hb := c.one_le_burst
  have hd : (0 : ℚ) ≤ c.maxDelayMicro := by exact_mod_cast c.maxDelayMicro_nonneg
  refine ⟨?_, le_refl _⟩
  show -(c.limitPerMicro * c.maxDelayMicro) ≤ (c.burst : ℚ)
  nlinarith

/-! ## One call

The refilled level sits between the stored one and the cap; the two kinds
of answer then read off `consumeOne`. -/

section OneCall

variable {b : Bucket} {t : ℤ}

theorem tokens_le_refill (hi : BucketInv c.toClockConfig b) :
    b.tokens ≤ refill b c.limitPerMicro c.burst t := by
  rw [refill_eq]
  have hr := c.limitPerMicro_pos
  have hel : (0 : ℚ) ≤ ((max b.last t - b.last : ℤ) : ℚ) := by
    exact_mod_cast sub_nonneg.mpr (le_max_left b.last t)
  exact le_min hi.high (by nlinarith)

theorem refill_le_elapsed :
    refill b c.limitPerMicro c.burst t ≤
      b.tokens + c.limitPerMicro * ((max b.last t - b.last : ℤ) : ℚ) := by
  rw [refill_eq]
  exact min_le_right _ _

theorem consume_last : (c.consume b t).answer.bucket.last = max b.last t :=
  consumeOne_last

theorem backlog_le_refill :
    backlog c.toClockConfig b ≤
      c.limitPerMicro * (max b.last t : ℤ) - refill b c.limitPerMicro c.burst t := by
  have hle := refill_le_elapsed (c := c) (b := b) (t := t)
  rw [Int.cast_sub, mul_sub] at hle
  rw [backlog]
  linarith

theorem consume_inv (hi : BucketInv c.toClockConfig b) :
    BucketInv c.toClockConfig (c.consume b t).answer.bucket := by
  have hr := c.limitPerMicro_pos
  have hle := tokens_le_refill (t := t) hi
  have hcap : refill b c.limitPerMicro c.burst t ≤ c.burst := refill_le_burst
  cases hk : kept b c.limitPerMicro c.burst t c.maxDelayMicro with
  | false =>
    have htok := consumeOne_of_refunded hk
    refine ⟨?_, ?_⟩
    · show _ ≤ (consumeOne b _ _ t _).bucket.tokens
      rw [htok]
      exact le_trans hi.low hle
    · show (consumeOne b _ _ t _).bucket.tokens ≤ _
      rw [htok]
      exact hcap
  | true =>
    have htok := (consumeOne_of_kept hr hk).1
    have hd : (0 : ℚ) ≤ c.maxDelayMicro := by exact_mod_cast c.maxDelayMicro_nonneg
    refine ⟨?_, ?_⟩
    · show _ ≤ (consumeOne b _ _ t _).bucket.tokens
      rw [htok]
      rcases wait_le_of_kept c.maxDelayMicro_nonneg hk with hw | hw
      · have hw' := le_trans (le_max_right _ _) hw
        rw [div_le_iff₀ hr] at hw'
        linarith
      · nlinarith
    · show (consumeOne b _ _ t _).bucket.tokens ≤ _
      rw [htok]
      linarith

/-- Every call, kept or refunded, leaves the backlog at least where it was,
and a kept one a whole token further. -/
theorem backlog_consume :
    backlog c.toClockConfig b + (if (c.consume b t).keptToken then 1 else 0) ≤
      backlog c.toClockConfig (c.consume b t).answer.bucket := by
  have hle := backlog_le_refill (c := c) (b := b) (t := t)
  have hlast := consume_last (c := c) (b := b) (t := t)
  cases hk : kept b c.limitPerMicro c.burst t c.maxDelayMicro with
  | false =>
    have htok : (c.consume b t).answer.bucket.tokens = _ := consumeOne_of_refunded hk
    have hkt : (c.consume b t).keptToken = false := hk
    rw [backlog, backlog, hlast, htok, hkt] at *
    simpa using hle
  | true =>
    have htok : (c.consume b t).answer.bucket.tokens = _ :=
      (consumeOne_of_kept c.limitPerMicro_pos hk).1
    have hkt : (c.consume b t).keptToken = true := hk
    rw [backlog, backlog, hlast, htok, hkt] at *
    simp only [if_true]
    linarith

theorem departure_of_kept (ht : b.last ≤ t)
    (hk : (c.consume b t).keptToken = true) :
    c.limitPerMicro * (c.consume b t).departure =
      max (c.limitPerMicro * t) (backlog c.toClockConfig (c.consume b t).answer.bucket) := by
  have hr := c.limitPerMicro_pos
  obtain ⟨htok, hwait⟩ := consumeOne_of_kept hr hk
  have htok' : (c.consume b t).answer.bucket.tokens = _ := htok
  have hwait' : (c.consume b t).answer.waitMicro = _ := hwait
  rw [Call.departure, backlog, consume_last, max_eq_right ht, htok', hwait']
  show c.limitPerMicro * ((t : ℚ) + _) = _
  rw [mul_add, mul_max_of_nonneg _ _ (le_of_lt hr), mul_zero, mul_div_cancel₀ _ (ne_of_gt hr),
    ← max_add_add_left]
  ring_nf

theorem departure_bounds (ht : b.last ≤ t)
    (hk : (c.consume b t).keptToken = true) :
    backlog c.toClockConfig (c.consume b t).answer.bucket ≤
        c.limitPerMicro * (c.consume b t).departure ∧
      c.limitPerMicro * (c.consume b t).departure ≤
        backlog c.toClockConfig (c.consume b t).answer.bucket + (c.burst - 1) := by
  rw [departure_of_kept ht hk]
  refine ⟨le_max_right _ _, max_le ?_ ?_⟩
  · have htok : (c.consume b t).answer.bucket.tokens = _ :=
      (consumeOne_of_kept c.limitPerMicro_pos hk).1
    have hcap : refill b c.limitPerMicro c.burst t ≤ c.burst := refill_le_burst
    rw [backlog, consume_last, max_eq_right ht, htok]
    linarith
  · linarith [c.one_le_burst]

end OneCall

/-! ## A run of calls

`consumeAll_mem` says once what a call of a run can be: a `consume` on some
bucket that meets the invariant, at a reading no older than the bucket and
with a backlog no lower than the run began with. The pairwise facts are
then one induction over the readings, each step comparing the head call
with an arbitrary later one. -/

theorem consumeAll_mem {x : Call} : ∀ {ts : List ℤ} {b : Bucket},
    (b.last :: ts).Pairwise (· ≤ ·) → BucketInv c.toClockConfig b →
    x ∈ c.consumeAll b ts →
    ∃ b' t', x = c.consume b' t' ∧ BucketInv c.toClockConfig b' ∧ b'.last ≤ t' ∧
      b.last ≤ t' ∧ backlog c.toClockConfig b ≤ backlog c.toClockConfig b' := by
  intro ts
  induction ts with
  | nil =>
    intro b _ _ hx
    exact absurd hx (by simp [ClockConfig.consumeAll])
  | cons t ts ih =>
    intro b hs hi hx
    obtain ⟨hhead, htail⟩ := List.pairwise_cons.mp hs
    have ht : b.last ≤ t := hhead t List.mem_cons_self
    rw [ClockConfig.consumeAll, List.mem_cons] at hx
    rcases hx with rfl | hx
    · exact ⟨b, t, rfl, hi, ht, ht, le_refl _⟩
    · have hlast := (consume_last (c := c) (t := t)).trans (max_eq_right ht)
      obtain ⟨b', t', rfl, hi', ht', hle, hback⟩ :=
        ih (by rw [hlast]; exact htail) (consume_inv hi) hx
      have hstep := backlog_consume (c := c) (b := b) (t := t)
      refine ⟨b', t', rfl, hi', ht', by omega, le_trans ?_ hback⟩
      split at hstep <;> linarith

theorem consumeAll_pairwise : ∀ {ts : List ℤ} {b : Bucket},
    (b.last :: ts).Pairwise (· ≤ ·) → BucketInv c.toClockConfig b →
    ((c.consumeAll b ts).filter (·.keptToken)).Pairwise fun x y =>
      x.departure ≤ y.departure ∧
      backlog c.toClockConfig x.answer.bucket + 1 ≤
        backlog c.toClockConfig y.answer.bucket := by
  intro ts
  induction ts with
  | nil =>
    intro b _ _
    exact List.Pairwise.nil
  | cons t ts ih =>
    intro b hs hi
    obtain ⟨hhead, htail⟩ := List.pairwise_cons.mp hs
    have ht : b.last ≤ t := hhead t List.mem_cons_self
    have hlast := (consume_last (c := c) (t := t)).trans (max_eq_right ht)
    have hs' : ((c.consume b t).answer.bucket.last :: ts).Pairwise (· ≤ ·) := by
      rw [hlast]; exact htail
    have hrest := ih hs' (consume_inv hi)
    rw [ClockConfig.consumeAll, List.filter_cons]
    split
    next hk =>
      refine List.pairwise_cons.mpr ⟨?_, hrest⟩
      intro y hy
      obtain ⟨hy, hky⟩ := List.mem_filter.mp hy
      obtain ⟨b', t', rfl, hi', ht', hle, hback⟩ :=
        consumeAll_mem hs' (consume_inv hi) hy
      have hclimb := backlog_consume (c := c) (b := b') (t := t')
      rw [hky, if_pos rfl] at hclimb
      refine ⟨?_, by linarith⟩
      -- Both departures are `max reading backlog`, and both halves grew.
      have hr := c.limitPerMicro_pos
      have htt : (t : ℚ) ≤ t' := by exact_mod_cast hlast ▸ hle
      refine le_of_mul_le_mul_left ?_ hr
      rw [departure_of_kept ht hk, departure_of_kept ht' hky]
      exact max_le_max (mul_le_mul_of_nonneg_left htt (le_of_lt hr)) (by linarith)
    · exact hrest

/-- For every accepted clock and every run of `consumeOne` on one bucket
that starts full, at readings that do not go back: the departures of the
kept calls are non-decreasing, any stretch of them holds at most `burst`
plus the rate times its length, and the stored tokens never leave
`[-limitPerMicro * maxDelayMicro, burst]`. -/
theorem consumeAll_conforms (c : AcceptedClock) (t₀ : ℤ) (ts : List ℤ)
    (hts : (t₀ :: ts).Pairwise (· ≤ ·)) :
    Conforms (c.burst : ℚ) c.limitPerMicro
        (((c.consumeAll (c.full t₀) ts).filter (·.keptToken)).map Call.departure) ∧
      ∀ x ∈ c.consumeAll (c.full t₀) ts,
        -(c.limitPerMicro * c.maxDelayMicro) ≤ x.answer.bucket.tokens ∧
          x.answer.bucket.tokens ≤ c.burst := by
  have hs : ((c.full t₀).last :: ts).Pairwise (· ≤ ·) := hts
  have hi := bucketInv_full (c := c) t₀
  have hpair := consumeAll_pairwise hs hi
  refine ⟨?_, ?_⟩
  · refine conforms_of_schedule (fun x => backlog c.toClockConfig x.answer.bucket)
      (hpair.imp fun h => h.1) (hpair.imp fun h => h.2) ?_ ?_
    · intro x hx
      obtain ⟨hx, hk⟩ := List.mem_filter.mp hx
      obtain ⟨b', t', rfl, _, ht', _, _⟩ := consumeAll_mem hs hi hx
      exact (departure_bounds ht' hk).1
    · intro x hx
      obtain ⟨hx, hk⟩ := List.mem_filter.mp hx
      obtain ⟨b', t', rfl, _, ht', _, _⟩ := consumeAll_mem hs hi hx
      exact (departure_bounds ht' hk).2
  · intro x hx
    obtain ⟨b', t', rfl, hi', ht', _, _⟩ := consumeAll_mem hs hi hx
    have hinv := consume_inv (t := t') hi'
    exact ⟨hinv.low, hinv.high⟩

/-- One request a second, one token, up to a second of delay. -/
def oneTokenClock : AcceptedClock where
  rate := 1
  burst := 1
  maxDelay := second
  ttl := second
  accepted := by decide +kernel

/-- Three calls in the same microsecond: one leaves at once, one is told to
wait a second, one is refunded. -/
theorem consumeAll_conforms_oneTokenClock :
    Conforms ((1 : ℤ) : ℚ) (1 / 1000000)
        (((oneTokenClock.consumeAll (oneTokenClock.full 0) [0, 0, 0]).filter
          (·.keptToken)).map Call.departure) ∧
      ∀ x ∈ oneTokenClock.consumeAll (oneTokenClock.full 0) [0, 0, 0],
        -((1 / 1000000) * ((1000000 : ℤ) : ℚ)) ≤ x.answer.bucket.tokens ∧
          x.answer.bucket.tokens ≤ ((1 : ℤ) : ℚ) :=
  consumeAll_conforms oneTokenClock 0 [0, 0, 0] (by decide)

end MiddlewareUtils.TokenBucket
