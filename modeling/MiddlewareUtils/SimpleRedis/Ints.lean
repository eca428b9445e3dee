import MiddlewareUtils.Lib.SignedInt
import MiddlewareUtils.SimpleRedis.Client

/-!
# Lengths and delays in machine integers

`Resp` parses a length with natural numbers, and `Client` leaves how long a
retry waits to the environment. Here is the arithmetic of both as Go does
it. A length is an `int`, of whatever width the platform gives it, and
`parseLen` guards every `length*10 + digit` by a division; whether that guard
is enough is what `Flagged` records. A delay is an `int64` and
`retryBackoff` counts on nothing: it shifts and adds, both may wrap, and it
looks at the result afterwards.

`rand.Int63n` is code of the standard library. It returns a number below its
argument, and panics when the argument is not positive (`none`).
-/

namespace MiddlewareUtils.SimpleRedis

open Lib

/-! ## Lengths -/

/-- `int(^uint(0) >> 1)` where an `int` has `w` bits. -/
def maxParseLenAt (w : ℕ) : ℤ := ((2 ^ w - 1) >>> 1 : ℕ)

/-- The digit loop of `parseLen`; `none` is its `return 0, false`. -/
def parseDigitsAt (w : ℕ) : ℤ → Bytes → Flagged (Option ℤ)
  | length, [] => pure (some length)
  | length, digitByte :: digits =>
    if digitByte < 48 ∨ 57 < digitByte then pure none
    else do
      let digit : ℤ := ((digitByte - 48).toNat : ℕ)
      let room ← signed w (maxParseLenAt w - digit)
      if length > room.tdiv 10 then pure none
      else do
        let tens ← signed w (length * 10)
        let length ← signed w (tens + digit)
        parseDigitsAt w length digits

/-- `parseLen` with an `int` of `w` bits, flagged if an operation overflows. -/
def parseLenAt (w : ℕ) : Bytes → Flagged (ℤ × Bool)
  | [] => pure (0, false)
  | b :: digits =>
    if b = 45 then
      if digits = [] then pure (0, false)
      else do
        match ← parseDigitsAt w 0 digits with
        | none => pure (0, false)
        | some length =>
          let negated ← signed w (-length)
          pure (negated, true)
    else do
      match ← parseDigitsAt w 0 (b :: digits) with
      | none => pure (0, false)
      | some length => pure (length, true)

/-! ## Delays -/

def millisecond : ℤ := 1000000

/-- What `retryLimits` makes of a backoff: 0 stands for the default and -1
for none. -/
def backoffLimit (default backoff : ℤ) : ℤ :=
  if backoff = -1 then 0 else if backoff = 0 then default else backoff

def retryLimits (maxRetries minBackoff maxBackoff : ℤ) : ℤ × ℤ × ℤ :=
  (retryLimit maxRetries, backoffLimit (8 * millisecond) minBackoff,
    backoffLimit (512 * millisecond) maxBackoff)

/-- What the calls of `rand.Int63n` draw, by their argument. -/
abbrev Draw := { int63n : ℤ → ℤ // ∀ n, 0 < n → 0 ≤ int63n n ∧ int63n n < n }

/-- `rand.Int63n(n)`. -/
def Draw.int63n (rand : Draw) (n : ℤ) : Option ℤ := if n ≤ 0 then none else some (rand.1 n)

/-- `retryBackoff`; `none` if `Int63n` panics. -/
def retryBackoff (rand : Draw) (retry minBackoff maxBackoff : ℤ) : Option ℤ :=
  if minBackoff = 0 then some 0
  else if retry < 0 then some maxBackoff
  else
    -- A shift by 64 or more leaves no bit, which is what wrapping makes of the product.
    let backoff := wrap 64 (minBackoff * 2 ^ retry.toNat)
    if backoff < minBackoff then some maxBackoff
    else do
      let span := backoff
      let backoff ←
        if span > 0 then (rand.int63n span).map fun drawn => wrap 64 (minBackoff + drawn)
        else some backoff
      some (if backoff > maxBackoff ∨ backoff < minBackoff then maxBackoff else backoff)

end MiddlewareUtils.SimpleRedis
