import Mathlib.Algebra.BigOperators.Group.Finset.Basic
import Mathlib.Algebra.Order.BigOperators.Group.Finset

/-!
# Counting over processes

How many of the first `n` processes are in some kind of state, as a sum of
weights. A step moves one process, so it changes the sum by what that one
weighs before and after; a new process adds its own weight.
-/

namespace MiddlewareUtils.Lib

open Function

variable {β : Type*}

def tally (f : β → ℕ) (procs : ℕ → β) (n : ℕ) : ℕ := ∑ p ∈ Finset.range n, f (procs p)

variable {f g : β → ℕ} {procs : ℕ → β} {n p : ℕ} {b : β}

theorem tally_update (hp : p < n) :
    tally f (update procs p b) n + f (procs p) = tally f procs n + f b := by
  have hmem := Finset.mem_range.mpr hp
  have hrest : ∑ q ∈ (Finset.range n).erase p, f (update procs p b q) =
      ∑ q ∈ (Finset.range n).erase p, f (procs q) := by
    refine Finset.sum_congr rfl fun q hq => ?_
    rw [update_of_ne (Finset.ne_of_mem_erase hq)]
  unfold tally
  rw [← Finset.add_sum_erase _ _ hmem, ← Finset.add_sum_erase _ (fun q => f (procs q)) hmem,
    hrest, update_self]
  omega

theorem tally_spawn : tally f (update procs n b) (n + 1) = tally f procs n + f b := by
  unfold tally
  rw [Finset.sum_range_succ, update_self]
  congr 1
  refine Finset.sum_congr rfl fun q hq => ?_
  rw [update_of_ne (Finset.mem_range.mp hq).ne]

theorem tally_succ : tally f procs (n + 1) = tally f procs n + f (procs n) :=
  Finset.sum_range_succ ..

theorem le_tally (hp : p < n) : f (procs p) ≤ tally f procs n :=
  Finset.single_le_sum (f := fun q => f (procs q)) (fun _ _ => Nat.zero_le _)
    (Finset.mem_range.mpr hp)

theorem tally_le (h : ∀ b, f b ≤ g b) : tally f procs n ≤ tally g procs n :=
  Finset.sum_le_sum fun q _ => h (procs q)

theorem tally_lt (h : ∀ b, f b ≤ g b) (hp : p < n) (hlt : f (procs p) < g (procs p)) :
    tally f procs n < tally g procs n :=
  Finset.sum_lt_sum (fun q _ => h (procs q)) ⟨p, Finset.mem_range.mpr hp, hlt⟩

theorem tally_eq_zero (h : ∀ p < n, f (procs p) = 0) : tally f procs n = 0 :=
  Finset.sum_eq_zero fun q hq => h q (Finset.mem_range.mp hq)

end MiddlewareUtils.Lib
