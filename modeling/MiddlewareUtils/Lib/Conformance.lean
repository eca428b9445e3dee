import Mathlib.Algebra.Order.Field.Basic
import Mathlib.Data.List.Basic
import Mathlib.Tactic.Linarith

/-!
# Conformance to an arrival curve

A sequence of departure times conforms to a burst `B` and a rate `r` when
it never goes back and no stretch of it holds more than `B` plus `r` times
the stretch's length. Conformance speaks about every sub-sequence at once,
so it is not proved per departure: `conforms_of_schedule` asks for a
virtual schedule, one level per departure, that climbs by at least one
from each departure to the next and never strays more than `B - 1` below
the departure it belongs to. That is the whole potential argument behind a
token bucket, with the bucket left out.
-/

namespace MiddlewareUtils.Lib

variable {K : Type*} [Field K] [LinearOrder K] [IsStrictOrderedRing K]

/-- Non-decreasing, and at most `burst + rate * (dⱼ - dᵢ)` departures from
the `i`-th to the `j`-th. -/
def Conforms (burst rate : K) (ds : List K) : Prop :=
  ds.Pairwise (· ≤ ·) ∧
    ∀ i j (hij : i ≤ j) (hj : j < ds.length),
      ((j - i + 1 : ℕ) : K) ≤ burst + rate * (ds[j] - ds[i])

theorem schedule_climbs {α : Type*} {level : α → K} {xs : List α}
    (h : xs.Pairwise fun x y => level x + 1 ≤ level y) :
    ∀ k i (hk : i + k < xs.length), level xs[i] + (k : K) ≤ level xs[i + k] := by
  intro k
  induction k with
  | zero =>
    intro i _
    simp
  | succ k ih =>
    intro i hk
    have hprev := ih i (by omega)
    have hnext := List.pairwise_iff_getElem.mp h (i + k) (i + (k + 1))
      (by omega) hk (by omega)
    push_cast
    linarith

theorem conforms_of_schedule {α : Type*} {burst rate : K} {depart : α → K}
    (level : α → K) {xs : List α} (hmono : xs.Pairwise fun x y => depart x ≤ depart y)
    (hclimb : xs.Pairwise fun x y => level x + 1 ≤ level y)
    (hlow : ∀ x ∈ xs, level x ≤ rate * depart x)
    (hhigh : ∀ x ∈ xs, rate * depart x ≤ level x + (burst - 1)) :
    Conforms burst rate (xs.map depart) := by
  refine ⟨List.pairwise_map.mpr hmono, ?_⟩
  intro i j hij hj
  obtain ⟨k, rfl⟩ := Nat.exists_eq_add_of_le hij
  rw [List.length_map] at hj
  have hclimbed := schedule_climbs hclimb k i hj
  have hl := hlow xs[i + k] (List.getElem_mem hj)
  have hh := hhigh xs[i] (List.getElem_mem (by omega))
  rw [List.getElem_map, List.getElem_map, Nat.add_sub_cancel_left, mul_sub]
  push_cast
  linarith

end MiddlewareUtils.Lib
