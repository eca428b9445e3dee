import MiddlewareUtils.Proofs.BucketConforms

/-!
# No interval refills a bucket twice

The readings of `Proofs.BucketConforms` never go back. Here they do what
they like: a caller that was delayed brings an old one, a host steps its
clock. `consumeOne` clamps `last` for the elapsed time and then stores the
later of the old `last` and the reading, two different values, and the
question is whether some order of readings is paid for one interval more
than once.

It is not, and nothing about the order enters. Whatever the reading, the
elapsed time is the advance of the stored `last` (`refill_eq`), so the
advances of a run telescope to the final `last` minus the first, and what
the refills added is at most that much at the rate. The number of kept
calls follows from the backlog of `Proofs.BucketConforms`, which also only
speaks of the stored `last`: it climbs by one for each of them, it starts
`burst` below the clock and it ends no further above it than the tokens can
be in debt.
-/

namespace MiddlewareUtils.TokenBucket

namespace ClockConfig

/-- The bucket a run leaves stored. -/
def bucketAfter (c : ClockConfig) : Bucket → List ℤ → Bucket
  | b, [] => b
  | b, t :: ts => c.bucketAfter (c.consume b t).answer.bucket ts

/-- What the refills of a run added, all together. -/
def refilled (c : ClockConfig) : Bucket → List ℤ → ℚ
  | _, [] => 0
  | b, t :: ts =>
    refill b c.limitPerMicro c.burst t - b.tokens +
      c.refilled (c.consume b t).answer.bucket ts

end ClockConfig

variable {c : AcceptedClock}

theorem consumeAll_last (ts : List ℤ) (b : Bucket) :
    (b.last :: (c.consumeAll b ts).map (·.answer.bucket.last)).Pairwise (· ≤ ·) := by
  induction ts generalizing b with
  | nil => exact List.pairwise_singleton _ _
  | cons t ts ih =>
    have hle : b.last ≤ (c.consume b t).answer.bucket.last := by
      rw [consume_last]
      exact le_max_left _ _
    have hrest := ih (c.consume b t).answer.bucket
    refine List.pairwise_cons.mpr ⟨?_, hrest⟩
    intro x hx
    rcases List.mem_cons.mp hx with rfl | hx
    · exact hle
    · exact le_trans hle ((List.pairwise_cons.mp hrest).1 x hx)

theorem bucketAfter_inv (ts : List ℤ) {b : Bucket} (hi : BucketInv c.toClockConfig b) :
    BucketInv c.toClockConfig (c.bucketAfter b ts) := by
  induction ts generalizing b with
  | nil => exact hi
  | cons t ts ih => exact ih (consume_inv hi)

theorem backlog_bucketAfter (ts : List ℤ) (b : Bucket) :
    backlog c.toClockConfig b + ((c.consumeAll b ts).countP (·.keptToken) : ℕ) ≤
      backlog c.toClockConfig (c.bucketAfter b ts) := by
  induction ts generalizing b with
  | nil => simp [ClockConfig.consumeAll, ClockConfig.bucketAfter]
  | cons t ts ih =>
    have hstep := backlog_consume (c := c) (b := b) (t := t)
    have hrest := ih (c.consume b t).answer.bucket
    rw [ClockConfig.consumeAll, ClockConfig.bucketAfter, List.countP_cons]
    push_cast
    linarith

theorem refilled_le (ts : List ℤ) (b : Bucket) :
    c.refilled b ts ≤ c.limitPerMicro * (((c.bucketAfter b ts).last - b.last : ℤ) : ℚ) := by
  induction ts generalizing b with
  | nil => simp [ClockConfig.refilled, ClockConfig.bucketAfter]
  | cons t ts ih =>
    have hstep := refill_le_elapsed (c := c) (b := b) (t := t)
    have hrest := ih (c.consume b t).answer.bucket
    rw [consume_last] at hrest
    rw [ClockConfig.refilled, ClockConfig.bucketAfter]
    push_cast at hstep hrest ⊢
    linarith

/-- For every accepted clock and every run of `consumeOne` on one bucket that
starts full at `t₀`, whatever the readings: the stored `last` never goes
back, the kept calls are at most `burst` plus what the advance of `last` and
the allowed debt are worth, and all refills together added no more than the
advance of `last` is worth once. -/
theorem consumeAll_refills_once (c : AcceptedClock) (t₀ : ℤ) (ts : List ℤ) :
    (t₀ :: (c.consumeAll (c.full t₀) ts).map (·.answer.bucket.last)).Pairwise (· ≤ ·) ∧
      (((c.consumeAll (c.full t₀) ts).countP (·.keptToken) : ℕ) : ℚ) ≤
        c.burst + c.limitPerMicro * (((c.bucketAfter (c.full t₀) ts).last - t₀ : ℤ) : ℚ) +
          c.limitPerMicro * c.maxDelayMicro ∧
      c.refilled (c.full t₀) ts ≤
        c.limitPerMicro * (((c.bucketAfter (c.full t₀) ts).last - t₀ : ℤ) : ℚ) := by
  refine ⟨consumeAll_last ts (c.full t₀), ?_, refilled_le ts (c.full t₀)⟩
  have hback := backlog_bucketAfter (c := c) ts (c.full t₀)
  have hlow := (bucketAfter_inv ts (bucketInv_full (c := c) t₀)).low
  rw [backlog, backlog] at hback
  have hstart : c.limitPerMicro * ((c.full t₀).last : ℚ) - (c.full t₀).tokens =
      c.limitPerMicro * t₀ - c.burst := rfl
  rw [hstart] at hback
  push_cast
  linarith

/-- A rewound clock: the readings 0, 5, 0, 5 refill the five microseconds
once, and the second pair finds nothing to add. -/
example : oneTokenClock.refilled (oneTokenClock.full 0) [0, 5, 0, 5] = 5 / 1000000 := by
  decide +kernel

end MiddlewareUtils.TokenBucket
