import Mathlib.Data.Rat.Floor
import Mathlib.Logic.Function.Basic
import Mathlib.Tactic.Linarith
import Mathlib.Tactic.FieldSimp

/-!
# Windows, weights and the Redis counters behind them

What both modes of `windowcounter/limiter.go` share: `slidingAt`, which
turns one clock reading into two Redis keys and a weight, and the part of
Redis the limiter talks to.

A reading is a count of nanoseconds since the Unix epoch, so it is a `Nat`
and `now.Unix()` is a division; Go's truncating division and the floor
agree there. The previous window's start is an integer all the same,
because the window before the first one starts below zero. Counts and
weights are rationals where Go has `float64`.

A Redis key is the pair it is printed from. `redisWindowKey` prints the
opaque text, a colon and a decimal, and a decimal holds no colon, so two
pairs print alike only when they are equal and the pair loses nothing.
-/

namespace MiddlewareUtils.WindowCounter

open Function

/-- `time.Second`, in nanoseconds. -/
def second : ℕ := 1000000000

/-- `now.Unix()` of a reading. -/
def unix (now : ℕ) : ℤ := (now / second : ℕ)

/-- `redisWindowKey opaqueKey windowStart`. -/
structure WindowKey where
  opaqueKey : String
  windowStart : ℤ
  deriving DecidableEq, Repr

/-- The two windows `slidingAt` refuses. -/
inductive WindowError where
  | subSecond
  | fractional
  deriving DecidableEq, Repr

def WindowError.text : WindowError → String
  | .subSecond => "windowcounter: window must be at least one second"
  | .fractional => "windowcounter: window must be a whole number of seconds"

/-- The two windows a call reads, and the weight of the earlier one. -/
structure SlidingWindow where
  currentKey : WindowKey
  previousKey : WindowKey
  weight : ℚ
  ttlSec : ℤ
  expireAt : ℤ
  deriving DecidableEq, Repr

/-- Keys, weight and lifetime of one Take or Peek at the reading `now`. -/
def slidingAt (key : String) (window : ℤ) (now : ℕ) :
    Except WindowError SlidingWindow :=
  if window < second then .error .subSecond
  else if window % second ≠ 0 then .error .fractional
  else
    let windowSec := window / second
    let windowStart := unix now / windowSec * windowSec
    let previousStart := windowStart - windowSec
    let elapsed := (unix now - windowStart) * second
    let weight := 1 - (elapsed : ℚ) / ((windowSec : ℚ) * (second : ℚ))
    let ttlSec := 2 * windowSec
    .ok { currentKey := ⟨key, windowStart⟩
          previousKey := ⟨key, previousStart⟩
          weight := if weight < 0 then 0 else weight
          ttlSec := ttlSec
          expireAt := windowStart + ttlSec }

/-- What an accepted reading pins down: the aligned window it falls in, its
whole-second offset there, and the weight that offset gives. -/
structure SlidingSpec (key : String) (windowSec : ℤ) (now : ℕ)
    (sl : SlidingWindow) : Prop where
  current_opaque : sl.currentKey.opaqueKey = key
  previous : sl.previousKey = ⟨key, sl.currentKey.windowStart - windowSec⟩
  start_le : sl.currentKey.windowStart ≤ unix now
  lt_end : unix now < sl.currentKey.windowStart + windowSec
  aligned : windowSec ∣ sl.currentKey.windowStart
  weight_eq : sl.weight =
    1 - ((unix now - sl.currentKey.windowStart : ℤ) : ℚ) / (windowSec : ℚ)
  ttl_eq : sl.ttlSec = 2 * windowSec
  expire_eq : sl.expireAt = sl.currentKey.windowStart + 2 * windowSec

theorem slidingAt_ok {key : String} {window : ℤ} {now : ℕ} {sl : SlidingWindow}
    (h : slidingAt key window now = .ok sl) :
    0 < window / second ∧ SlidingSpec key (window / second) now sl := by
  unfold slidingAt at h
  split at h
  · cases h
  next hsec =>
    split at h
    · cases h
    next hwhole =>
      injection h with h
      have hpos : 0 < window / (second : ℤ) := by
        refine Int.ediv_pos_of_pos_of_dvd ?_ (by decide) (Int.dvd_of_emod_eq_zero ?_)
        · have : (second : ℤ) = 1000000000 := rfl
          omega
        · omega
      have hmod := Int.emod_add_mul_ediv (unix now) (window / second)
      have hlo := Int.emod_nonneg (unix now) (ne_of_gt hpos)
      have hhi := Int.emod_lt_of_pos (unix now) hpos
      have hcomm := mul_comm (unix now / (window / second)) (window / (second : ℤ))
      have hstart : unix now / (window / second) * (window / second) ≤ unix now := by
        rw [hcomm]; omega
      have hend : unix now <
          unix now / (window / second) * (window / second) + window / second := by
        rw [hcomm]; omega
      have hw : (0 : ℚ) < ((window / second : ℤ) : ℚ) := by exact_mod_cast hpos
      have hs : (0 : ℚ) < (second : ℚ) := by norm_num [second]
      -- The clamp at zero never bites: the offset is inside the window.
      have hfrac :
          (((unix now - unix now / (window / second) * (window / second)) * second : ℤ) : ℚ) /
          (((window / second : ℤ) : ℚ) * (second : ℚ)) =
          ((unix now - unix now / (window / second) * (window / second) : ℤ) : ℚ) /
            ((window / second : ℤ) : ℚ) := by
        push_cast
        field_simp
      have hlt : ((unix now - unix now / (window / second) * (window / second) : ℤ) : ℚ) <
          ((window / second : ℤ) : ℚ) := by
        exact_mod_cast sub_lt_iff_lt_add'.mpr hend
      have hone := (div_lt_one hw).mpr hlt
      refine ⟨hpos, ?_⟩
      subst h
      refine ⟨rfl, rfl, hstart, hend, Dvd.intro_left _ rfl, ?_, rfl, rfl⟩
      dsimp only
      rw [hfrac, if_neg (by linarith)]

/-! ## The Redis counters

A missing key and a key at zero answer a GET alike, and both INCR to one,
so the only thing a missing entry adds is the expiry it does not have. -/

/-- A counter in Redis and its expiry. -/
structure Entry where
  value : ℤ
  expireAt : Option ℤ
  deriving DecidableEq, Repr

abbrev Store : Type := WindowKey → Option Entry

namespace Store

def empty : Store := fun _ => none

/-- `countFromRedisGet` of a GET that reached Redis: a miss is zero. -/
def get (r : Store) (k : WindowKey) : ℤ :=
  match r k with
  | none => 0
  | some e => e.value

/-- `INCRBY`, which keeps the expiry a key already has. -/
def incrBy (r : Store) (k : WindowKey) (delta : ℤ) : Store :=
  update r k (some ⟨r.get k + delta, (r k).bind (·.expireAt)⟩)

/-- `EXPIREAT` and `EXPIRE`, no-ops on a missing key. -/
def expireAt (r : Store) (k : WindowKey) (unixSeconds : ℤ) : Store :=
  match r k with
  | none => r
  | some e => update r k (some { e with expireAt := some unixSeconds })

/-- `flushScript`: INCRBY, and EXPIREAT only when the key was new. -/
def flush (r : Store) (k : WindowKey) (delta expire : ℤ) : Store :=
  let grown := r.incrBy k delta
  if (r k).isNone then grown.expireAt k expire else grown

/-- The key is gone: expired, evicted or deleted. -/
def lose (r : Store) (k : WindowKey) : Store := update r k none

variable {r : Store} {k k' : WindowKey}

theorem incrBy_apply (d : ℤ) : r.incrBy k d k' =
    if k' = k then some ⟨r.get k + d, (r k).bind (·.expireAt)⟩ else r k' :=
  update_apply ..

theorem expireAt_apply (t : ℤ) : r.expireAt k t k' =
    if k' = k then (r k).map ({ · with expireAt := some t }) else r k' := by
  unfold expireAt
  cases hk : r k with
  | none =>
    dsimp only
    split
    next h => rw [h, hk]; rfl
    · rfl
  | some e => exact update_apply ..

@[simp] theorem get_incrBy_self {d : ℤ} : (r.incrBy k d).get k = r.get k + d := by
  simp [get, incrBy]

@[simp] theorem get_incrBy_of_ne {d : ℤ} (h : k' ≠ k) :
    (r.incrBy k d).get k' = r.get k' := by
  simp [get, incrBy, update_of_ne h]

@[simp] theorem get_expireAt {e : ℤ} : (r.expireAt k e).get k' = r.get k' := by
  unfold expireAt
  split
  · rfl
  next entry hk =>
    by_cases h : k' = k
    · subst h; simp [get, hk]
    · simp [get, update_of_ne h]

@[simp] theorem get_flush_self {d e : ℤ} : (r.flush k d e).get k = r.get k + d := by
  unfold flush
  dsimp only
  split <;> simp

@[simp] theorem get_flush_of_ne {d e : ℤ} (h : k' ≠ k) :
    (r.flush k d e).get k' = r.get k' := by
  unfold flush
  dsimp only
  split <;> simp [h]

@[simp] theorem get_lose_of_ne (h : k' ≠ k) : (r.lose k).get k' = r.get k' := by
  simp [get, lose, update_of_ne h]

@[simp] theorem get_empty : empty.get k = 0 := rfl

end Store

end MiddlewareUtils.WindowCounter
