import MiddlewareUtils.BackendBackoff.Raw

/-!
# The doubling of a cooldown stays inside int64

The loop of `cooldownDuration` doubles only a `wait` that is at most half of
`MaxCooldown`, rounded down. Twice that is at most `MaxCooldown`, a duration,
so no doubling overflows; and a `wait` above the rounded half has its double
above `MaxCooldown`, also when the cap is odd, so stopping there loses
nothing. The first half of the argument is here: in `int64` the loop
computes what it computes without bounds. The second is `Config.doubled_eq`.
-/

namespace MiddlewareUtils.BackendBackoff

open Lib

namespace Config

variable {cfg : Config}

theorem doubledInt64_eq (hfits : Fits 64 cfg.maxCooldown) :
    ∀ (n : ℕ) {wait : ℤ}, 0 < wait → wait ≤ cfg.maxCooldown →
      cfg.doubledInt64 n wait = pure (cfg.doubled n wait) := by
  intro n
  induction n with
  | zero =>
    intro wait _ _
    rfl
  | succ n ih =>
    intro wait hpos hle
    have hdiv : cfg.maxCooldown.tdiv 2 = cfg.maxCooldown / 2 :=
      Int.tdiv_eq_ediv_of_nonneg (by omega)
    rw [doubledInt64, doubled, hdiv]
    split
    · rfl
    next hhalf =>
      have htwice : Fits 64 (wait * 2) := by
        have hmax := hfits.2
        unfold Fits
        omega
      rw [signed_bind (by decide) htwice]
      exact ih (by omega) (by omega)

theorem cooldownDurationInt64_eq (hbase : 0 < cfg.baseCooldown)
    (hmax : cfg.baseCooldown ≤ cfg.maxCooldown) (hfits : Fits 64 cfg.maxCooldown) (n : ℕ)
    (jitterSample : Sample) :
    cfg.cooldownDurationInt64 n jitterSample = pure (cfg.cooldownDuration n jitterSample) := by
  unfold cooldownDurationInt64 cooldownDuration
  rw [doubledInt64_eq hfits n hbase hmax, Flagged.pure_bind]
  dsimp only
  split <;> rfl

end Config

/-- The doubling never leaves `int64`, and without jitter the cooldown is
`BaseCooldown` doubled `n` times, at most `MaxCooldown`, and grows with `n`. -/
theorem cooldown_is_capped_power {cfg : Config} (hbase : 0 < cfg.baseCooldown)
    (hmax : cfg.baseCooldown ≤ cfg.maxCooldown) (hfits : Fits 64 cfg.maxCooldown)
    (hj : cfg.jitter = 0) (n : ℕ) (jitterSample : Config.Sample) :
    cfg.cooldownDurationInt64 n jitterSample =
        ⟨min (cfg.baseCooldown * 2 ^ n) cfg.maxCooldown, false⟩ ∧
      ∀ m ≤ n, ∀ sample, (cfg.cooldownDurationInt64 m sample).value ≤
        (cfg.cooldownDurationInt64 n jitterSample).value := by
  have hpower : ∀ k sample, cfg.cooldownDurationInt64 k sample =
      ⟨min (cfg.baseCooldown * 2 ^ k) cfg.maxCooldown, false⟩ := by
    intro k sample
    rw [Config.cooldownDurationInt64_eq hbase hmax hfits,
      Config.cooldownDuration_eq hbase hmax hj]
    rfl
  refine ⟨hpower n jitterSample, ?_⟩
  intro m hm sample
  rw [hpower, hpower]
  have hpow : (2 : ℤ) ^ m ≤ 2 ^ n := pow_le_pow_right₀ (by decide) hm
  exact min_le_min_right _ (mul_le_mul_of_nonneg_left hpow hbase.le)

/-- An odd cap just below the end of the range. -/
def oddCap : Config := ⟨1 / 2, 1, 3, 2 ^ 63 - 1, 0, 60 * second⟩

theorem cooldown_is_capped_power_oddCap :
    oddCap.cooldownDurationInt64 62 ⟨0, by decide⟩ = ⟨2 ^ 63 - 1, false⟩ :=
  (cooldown_is_capped_power (by decide) (by decide) (by decide) rfl 62 ⟨0, by decide⟩).1

end MiddlewareUtils.BackendBackoff
