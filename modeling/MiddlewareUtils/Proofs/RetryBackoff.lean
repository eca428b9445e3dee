import MiddlewareUtils.SimpleRedis.Ints

/-!
# How long a retry waits

`retryBackoff` lets its arithmetic wrap and checks afterwards, so the proof
does not ask what the shift or the sum come to. The first check sends
everything below `minBackoff` to `maxBackoff`, whatever wrapped on the way;
what passes it is positive, because `minBackoff` is, and so a number
`rand.Int63n` takes. The second check sends the jittered sum to `maxBackoff`
unless it lies between the two bounds, again whatever it came to. With
`maxBackoff` below `minBackoff` no number lies between them, and every delay
is `maxBackoff`.

`exec` calls it with what `retryLimits` made of the configuration, where a
backoff of -1 or more is never negative any more.
-/

namespace MiddlewareUtils.SimpleRedis

open Lib

variable {minBackoff maxBackoff : ℤ}

theorem Draw.int63n_of_pos (rand : Draw) {n : ℤ} (hn : 0 < n) :
    rand.int63n n = some (rand.1 n) := if_neg (by omega)

theorem retryBackoff_bounds (rand : Draw) {retry : ℤ} (hretry : 0 ≤ retry)
    (hmin : 0 < minBackoff) (maxBackoff : ℤ) :
    ∃ delay, retryBackoff rand retry minBackoff maxBackoff = some delay ∧
      min minBackoff maxBackoff ≤ delay ∧ delay ≤ maxBackoff := by
  have hcap : ∃ delay, some maxBackoff = some delay ∧
      min minBackoff maxBackoff ≤ delay ∧ delay ≤ maxBackoff :=
    ⟨maxBackoff, rfl, min_le_right _ _, le_refl _⟩
  unfold retryBackoff
  rw [if_neg (by omega), if_neg (by omega)]
  dsimp only
  -- What the shift came to does not matter from here on.
  generalize wrap 64 (minBackoff * 2 ^ retry.toNat) = span
  split
  · exact hcap
  next hspan =>
    have hpos : 0 < span := by omega
    rw [if_pos hpos, rand.int63n_of_pos hpos]
    dsimp only [Option.map_some, Option.bind_eq_bind, Option.bind_some]
    generalize wrap 64 (minBackoff + rand.1 span) = jittered
    split
    · exact hcap
    next hrange =>
      push Not at hrange
      exact ⟨jittered, rfl, (min_le_left _ _).trans hrange.2, hrange.1⟩

/-- A retry's delay is zero if `minBackoff` is, and else between the smaller of
the two settings and `maxBackoff`, whatever is drawn and however the shift wraps. -/
theorem retryBackoff_in_range (rand : Draw) {retry : ℤ} (hretry : 0 ≤ retry)
    (hmin : 0 ≤ minBackoff) (maxBackoff : ℤ) :
    ∃ delay, retryBackoff rand retry minBackoff maxBackoff = some delay ∧
      (minBackoff = 0 → delay = 0) ∧
      (minBackoff ≠ 0 → min minBackoff maxBackoff ≤ delay ∧ delay ≤ maxBackoff) := by
  by_cases hzero : minBackoff = 0
  · exact ⟨0, if_pos hzero, fun _ => rfl, fun hne => absurd hzero hne⟩
  · have hpos : 0 < minBackoff := by omega
    obtain ⟨delay, hdelay, hbounds⟩ := retryBackoff_bounds rand hretry hpos maxBackoff
    exact ⟨delay, hdelay, fun h => absurd h hzero, fun _ => hbounds⟩

/-- Always the smallest number. -/
def drawZero : Draw := ⟨fun _ => 0, fun _ hn => ⟨le_refl 0, hn⟩⟩

/-- The shift wraps to the least `int64`. -/
theorem retryBackoff_in_range_wrapped :
    wrap 64 (2 ^ 62 * 2 ^ (1 : ℤ).toNat) < 0 ∧
      ∃ delay, retryBackoff drawZero 1 (2 ^ 62) (512 * millisecond) = some delay ∧
        ((2 ^ 62 : ℤ) ≠ 0 → min (2 ^ 62) (512 * millisecond) ≤ delay ∧
          delay ≤ 512 * millisecond) := by
  refine ⟨by decide +kernel, ?_⟩
  obtain ⟨delay, hdelay, -, hbounds⟩ :=
    retryBackoff_in_range drawZero (show (0 : ℤ) ≤ 1 by decide)
      (show (0 : ℤ) ≤ 2 ^ 62 by decide) (512 * millisecond)
  exact ⟨delay, hdelay, hbounds⟩

/-! ## The delays of a command -/

theorem backoffLimit_nonneg {default backoff : ℤ} (hdefault : 0 ≤ default) (h : -1 ≤ backoff) :
    0 ≤ backoffLimit default backoff := by
  unfold backoffLimit
  split
  · exact le_refl 0
  next hoff =>
    split
    · exact hdefault
    · omega

/-- Before attempt `attempt` a command waits at most the configured maximum,
with -1 for no wait and 0 for the default. -/
theorem retry_waits_at_most (rand : Draw) {attempt : ℕ} {maxRetries : ℤ} (hmin : -1 ≤ minBackoff)
    (hmax : -1 ≤ maxBackoff) :
    ∃ delay, retryBackoff rand attempt (retryLimits maxRetries minBackoff maxBackoff).2.1
        (retryLimits maxRetries minBackoff maxBackoff).2.2 = some delay ∧
      0 ≤ delay ∧ delay ≤ backoffLimit (512 * millisecond) maxBackoff := by
  have hlo : 0 ≤ backoffLimit (8 * millisecond) minBackoff :=
    backoffLimit_nonneg (by decide) hmin
  have hhi : 0 ≤ backoffLimit (512 * millisecond) maxBackoff :=
    backoffLimit_nonneg (by decide) hmax
  by_cases hzero : backoffLimit (8 * millisecond) minBackoff = 0
  · exact ⟨0, if_pos hzero, le_refl 0, hhi⟩
  · have hpos : 0 < backoffLimit (8 * millisecond) minBackoff := by omega
    obtain ⟨delay, hdelay, hge, hle⟩ :=
      retryBackoff_bounds rand (Int.natCast_nonneg attempt) hpos
        (backoffLimit (512 * millisecond) maxBackoff)
    exact ⟨delay, hdelay, (le_min hlo hhi).trans hge, hle⟩

end MiddlewareUtils.SimpleRedis
