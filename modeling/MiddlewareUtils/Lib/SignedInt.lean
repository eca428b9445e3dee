import Mathlib.Algebra.Order.Ring.Int

/-!
# Signed integers of a fixed width

Go's `int`, `int64` and `time.Duration` wrap: an operation is the operation
on unbounded integers, cut down to the bits that are kept (`wrap`). Where
nothing wraps that is no difference, and then code and unbounded arithmetic
say the same; where something does, what the code goes on to compare is the
wrapped value.

Whether something wrapped is not visible in the value that comes out, so
code of which it is claimed that nothing does is written in `Flagged`: the
values are the wrapped ones, and a flag that no branch can read remembers
whether an operation on the way left the range. Proofs about such code need
one rule. An operation that stays in range is the one on unbounded integers
(`signed_bind`), so a computation all of whose operations stay in range is
the same computation without the flag.
-/

namespace MiddlewareUtils.Lib

/-- `x` is a signed integer of `w` bits. -/
def Fits (w : ℕ) (x : ℤ) : Prop := -2 ^ (w - 1) ≤ x ∧ x < 2 ^ (w - 1)

instance (w : ℕ) (x : ℤ) : Decidable (Fits w x) := inferInstanceAs (Decidable (_ ∧ _))

/-- What `w` bits keep of `x`. -/
def wrap (w : ℕ) (x : ℤ) : ℤ := x.bmod (2 ^ w)

theorem two_pow_pred {w : ℕ} (hw : 0 < w) : 2 ^ w = 2 * 2 ^ (w - 1) := by
  rw [← pow_succ', Nat.sub_add_cancel hw]

theorem wrap_of_fits {w : ℕ} {x : ℤ} (hw : 0 < w) (h : Fits w x) : wrap w x = x := by
  obtain ⟨hlo, hhi⟩ := h
  have hpow := two_pow_pred hw
  apply Int.bmod_eq_of_le
  · rw [hpow]
    push_cast
    omega
  · rw [hpow]
    push_cast
    omega

/-! ## Operations that are watched -/

/-- A value, and whether an operation on the way to it overflowed. -/
structure Flagged (α : Type) where
  value : α
  overflowed : Bool
  deriving DecidableEq, Repr

instance : Monad Flagged where
  pure a := ⟨a, false⟩
  bind x f := ⟨(f x.value).value, x.overflowed || (f x.value).overflowed⟩

theorem Flagged.pure_bind {α β : Type} (a : α) (f : α → Flagged β) : pure a >>= f = f a :=
  congrArg (Flagged.mk _) (Bool.false_or _)

def signed (w : ℕ) (x : ℤ) : Flagged ℤ := ⟨wrap w x, !decide (Fits w x)⟩

theorem signed_of_fits {w : ℕ} {x : ℤ} (hw : 0 < w) (h : Fits w x) : signed w x = pure x := by
  unfold signed
  rw [wrap_of_fits hw h, decide_eq_true h]
  rfl

theorem signed_bind {α : Type} {w : ℕ} {x : ℤ} (hw : 0 < w) (h : Fits w x) (f : ℤ → Flagged α) :
    signed w x >>= f = f x := by
  rw [signed_of_fits hw h, Flagged.pure_bind]

end MiddlewareUtils.Lib
