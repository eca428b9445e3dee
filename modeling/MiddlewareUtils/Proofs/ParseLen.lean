import MiddlewareUtils.Proofs.RespGrammar
import MiddlewareUtils.SimpleRedis.Ints

/-!
# Parsing a length stays inside an int

`parseLen` reads a number of any length with an `int` of a fixed one. It is
the guard that makes this work: `length > (maxParseLen - digit) / 10` refuses
exactly the digits after which `length*10 + digit` would be too large, since
a truncated quotient is passed by an integer only when the product is. So
the loop never holds a number outside the range, no product and no sum wraps,
and `parseLenAt` is `parseLen` of `Resp`, which computes without bounds. What
that one accepts is known from the grammar. The negation at the end cannot
overflow either: the range reaches one further down than up.

Accepting every `int` includes the two largest, and to those the 2 of the
CRLF trailer cannot be added. The fuzz target of the source says it can.
-/

namespace MiddlewareUtils.SimpleRedis

open Lib

/-- The largest `int` of `w` bits. -/
def largestInt (w : ℕ) : ℕ := 2 ^ (w - 1) - 1

section Width

variable {w : ℕ}

theorem largestInt_le (hw : 8 ≤ w) : 127 ≤ largestInt w := by
  have hpow : 2 ^ 7 ≤ 2 ^ (w - 1) := Nat.pow_le_pow_right (by decide) (by omega)
  unfold largestInt
  omega

theorem fits_iff {x : ℤ} : Fits w x ↔ -(largestInt w : ℤ) - 1 ≤ x ∧ x ≤ largestInt w := by
  have hpos : 0 < 2 ^ (w - 1) := Nat.two_pow_pos _
  have hcast : (largestInt w : ℤ) = 2 ^ (w - 1) - 1 := by
    unfold largestInt
    push_cast [hpos]
    rfl
  unfold Fits
  rw [hcast]
  omega

theorem maxParseLenAt_eq (hw : 8 ≤ w) : maxParseLenAt w = largestInt w := by
  have hpow : 2 ^ w = 2 * 2 ^ (w - 1) := two_pow_pred (by omega)
  unfold maxParseLenAt largestInt
  rw [Nat.shiftRight_eq_div_pow, hpow]
  congr 1
  omega

/-! ## The loop -/

theorem parseDigitsAt_eq {length : ℕ} {digits : Bytes} (hw : 8 ≤ w)
    (hlen : length ≤ largestInt w) :
    parseDigitsAt w length digits =
      pure ((parseDigits (largestInt w) length digits).map Int.ofNat) := by
  have hpos : 0 < w := by omega
  have hlarge := largestInt_le hw
  induction digits generalizing length with
  | nil => rfl
  | cons b bs ih =>
    rw [parseDigitsAt, parseDigits]
    split
    · rfl
    next hb =>
      rw [UInt8.lt_iff_toNat_lt, UInt8.lt_iff_toNat_lt, not_or, not_lt, not_lt] at hb
      have hlow : 48 ≤ b.toNat := hb.1
      have hhigh : b.toNat ≤ 57 := hb.2
      have hdigit : (b - 48).toNat = b.toNat - 48 := UInt8.toNat_sub_of_le b 48 hb.1
      have hroom : maxParseLenAt w - ((b - 48).toNat : ℤ) =
          ((largestInt w - (b.toNat - 48) : ℕ) : ℤ) := by
        rw [maxParseLenAt_eq hw, hdigit]
        omega
      have hdiv : ((largestInt w - (b.toNat - 48) : ℕ) : ℤ).tdiv 10 =
          (((largestInt w - (b.toNat - 48)) / 10 : ℕ) : ℤ) := rfl
      dsimp only
      rw [hroom, signed_bind hpos (fits_iff.mpr (by omega)), hdiv, hdigit]
      by_cases hover : (largestInt w - (b.toNat - 48)) / 10 < length
      · rw [if_pos (by omega), if_pos hover]
        rfl
      · have hnext : (length : ℤ) * 10 + (b.toNat - 48 : ℕ) =
            ((length * 10 + (b.toNat - 48) : ℕ) : ℤ) := by
          push_cast
          rfl
        rw [if_neg (by omega), if_neg hover, signed_bind hpos (fits_iff.mpr (by omega)),
          signed_bind hpos (fits_iff.mpr (by omega)), hnext]
        exact ih (by omega)

def orZero : Option ℤ → ℤ × Bool
  | none => (0, false)
  | some v => (v, true)

theorem parseLenAt_eq (hw : 8 ≤ w) (digits : Bytes) :
    parseLenAt w digits = pure (orZero (parseLen (largestInt w) digits)) := by
  have hloop : ∀ ds, parseDigitsAt w 0 ds =
      pure ((parseDigits (largestInt w) 0 ds).map Int.ofNat) :=
    fun ds => parseDigitsAt_eq hw (Nat.zero_le _)
  cases digits with
  | nil => rfl
  | cons b bs =>
    rw [parseLenAt, parseLen]
    split
    · split
      · rfl
      · rw [hloop]
        cases hparse : parseDigits (largestInt w) 0 bs with
        | none => rfl
        | some n =>
          have hle : n ≤ largestInt w :=
            ((parseDigits_iff (by have := largestInt_le hw; omega) (Nat.zero_le _)).mp
              hparse).2.2
          have hneg : signed w (-Int.ofNat n) = pure (-Int.ofNat n) :=
            signed_of_fits (by omega) (fits_iff.mpr (by simp only [Int.ofNat_eq_natCast]; omega))
          show (do let negated ← signed w (-Int.ofNat n); pure (negated, true)) = _
          rw [hneg]
          rfl
    · rw [hloop]
      cases parseDigits (largestInt w) 0 (b :: bs) <;> rfl

theorem parseLenAt_value_iff (hw : 8 ≤ w) {digits : Bytes} {v : ℤ} :
    (parseLenAt w digits).value = (v, true) ↔ NumeralUpTo (largestInt w) digits v := by
  have hnine : 9 ≤ largestInt w := by
    have := largestInt_le hw
    omega
  rw [parseLenAt_eq hw, ← parseLen_iff_upTo hnine]
  show orZero (parseLen (largestInt w) digits) = (v, true) ↔ _
  cases parseLen (largestInt w) digits with
  | none =>
    constructor
    · intro h
      cases h
    · intro h
      cases h
  | some n =>
    constructor
    · intro h
      cases h
      rfl
    · intro h
      cases h
      rfl

/-! ## What is accepted, and what two more bytes do to it -/

/-- In 8 bits or more, `parseLen` never overflows and accepts the decimal lengths
that fit and nothing else. -/
theorem parseLen_exact (hw : 8 ≤ w) (digits : Bytes) :
    (parseLenAt w digits).overflowed = false ∧
      (∀ v, (parseLenAt w digits).value = (v, true) ↔ NumeralUpTo (largestInt w) digits v) ∧
      ((∀ v, ¬ NumeralUpTo (largestInt w) digits v) →
        (parseLenAt w digits).value = (0, false)) := by
  refine ⟨?_, fun v => parseLenAt_value_iff hw, ?_⟩
  · rw [parseLenAt_eq hw]
    rfl
  · intro hno
    have hrefused : ∀ v, (parseLenAt w digits).value ≠ (v, true) :=
      fun v h => hno v ((parseLenAt_value_iff hw).mp h)
    rw [parseLenAt_eq hw] at hrefused ⊢
    show orZero (parseLen (largestInt w) digits) = (0, false)
    cases hparse : parseLen (largestInt w) digits with
    | none => rfl
    | some v =>
      refine absurd ?_ (hrefused v)
      show orZero (parseLen (largestInt w) digits) = (v, true)
      rw [hparse]
      rfl

/-- An `int` of 8 bits: the guard lets the last number through, with its sign. -/
theorem parseLen_exact_eightBits :
    NumeralUpTo (largestInt 8) (ascii "-127") (-127) ∧
      (parseLenAt 8 (ascii "128")).value = (0, false) :=
  ⟨((parseLen_exact (by decide) _).2.1 (-127)).mp (by decide), by decide⟩

/-- A length has room for its trailer unless the digits spell one of the two
largest `int`s. -/
theorem length_plus_trailer_iff (hw : 8 ≤ w) (digits : Bytes) :
    (∀ length, (parseLenAt w digits).value = (length, true) → 0 ≤ length →
        Fits w (length + 2)) ↔
      ¬ ((∀ b ∈ digits, isDigit b) ∧
        (digitsValue 0 digits = largestInt w ∨ digitsValue 0 digits = largestInt w - 1)) := by
  have hlarge := largestInt_le hw
  constructor
  · rintro hfits ⟨hd, htop⟩
    have hne : digits ≠ [] := by
      rintro rfl
      rw [show digitsValue 0 [] = 0 from rfl] at htop
      omega
    have haccept := (parseLenAt_value_iff hw).mpr
      (.nat hne hd rfl (show digitsValue 0 digits ≤ largestInt w by omega))
    have hroom := (fits_iff.mp (hfits _ haccept (by omega))).2
    omega
  · intro hnot length hvalue hnonneg
    cases (parseLenAt_value_iff hw).mp hvalue with
    | nat hne hd hn hle =>
      have hsmall : ¬ (digitsValue 0 digits = largestInt w ∨
          digitsValue 0 digits = largestInt w - 1) := fun htop => hnot ⟨hd, htop⟩
      exact fits_iff.mpr (by omega)
    | neg => exact fits_iff.mpr (by omega)

theorem length_plus_trailer_iff_small :
    Fits 64 ((parseLenAt 64 (ascii "42")).value.1 + 2) :=
  (length_plus_trailer_iff (by decide) (ascii "42")).mpr
    (by rintro ⟨-, htop⟩; revert htop; decide) 42 (by decide) (by decide)

/-- The largest `int` of a 64-bit platform is a length, and two more is none. -/
theorem largest_length_overflows :
    (parseLenAt 64 (ascii "9223372036854775807")).value = (9223372036854775807, true) ∧
      ¬ Fits 64 (9223372036854775807 + 2) := by
  decide +kernel

end Width

end MiddlewareUtils.SimpleRedis
