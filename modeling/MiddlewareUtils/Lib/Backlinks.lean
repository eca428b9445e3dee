import Mathlib.Data.List.Nodup
import Mathlib.Logic.Function.Basic

/-!
# Pointers and the lists that point back

A record points at one target or at none, and every target keeps the list
of the records that point at it. The two are edited together and have to
agree: a record is in the list of a target exactly when it points there,
and it is there once. `Linked` says that, and the three rules are the three
edits: a record lets go of its target, a record without a target takes one,
and a target lets go of everything in its list. The last one rewrites all
the records of the list, one after another; `foldl_update` is what such a
sweep leaves.
-/

namespace MiddlewareUtils.Lib

open Function

variable {ε ι β : Type*} [DecidableEq ε]

structure Linked (target : ε → Option ι) (back : ι → List ε) : Prop where
  mem : ∀ e i, e ∈ back i ↔ target e = some i
  nodup : ∀ i, (back i).Nodup

theorem foldl_update (g : ε → β → β) {es : List ε} (hes : es.Nodup) (f : ε → β) (x : ε) :
    es.foldl (fun f e => update f e (g e (f e))) f x =
      if x ∈ es then g x (f x) else f x := by
  induction es generalizing f with
  | nil => rfl
  | cons e es ih =>
    obtain ⟨he, hes⟩ := List.nodup_cons.mp hes
    rw [List.foldl_cons, ih hes]
    by_cases hx : x = e
    · subst hx
      rw [if_neg he, if_pos List.mem_cons_self, update_self]
    · rw [update_of_ne hx]
      by_cases hmem : x ∈ es
      · rw [if_pos hmem, if_pos (List.mem_cons_of_mem e hmem)]
      · rw [if_neg hmem, if_neg fun h => (List.mem_cons.mp h).elim hx hmem]

namespace Linked

variable [DecidableEq ι] {target : ε → Option ι} {back : ι → List ε}

theorem count (h : Linked target back) (e : ε) (i : ι) :
    (back i).count e = if target e = some i then 1 else 0 := by
  split
  next ht => exact List.count_eq_one_of_mem (h.nodup i) ((h.mem e i).mpr ht)
  next ht => exact List.count_eq_zero_of_not_mem fun he => ht ((h.mem e i).mp he)

theorem detach (h : Linked target back) {e : ε} {i : ι} (he : target e = some i) :
    Linked (update target e none)
      (update back i ((back i).filter (· ≠ e))) := by
  refine ⟨fun f j => ?_, fun j => ?_⟩
  · by_cases hj : j = i
    · subst hj
      rw [update_self, List.mem_filter, h.mem]
      by_cases hf : f = e
      · subst hf
        simp
      · rw [update_of_ne hf]
        simp [hf]
    · rw [update_of_ne hj, h.mem]
      by_cases hf : f = e
      · subst hf
        rw [he, update_self]
        simp [Ne.symm hj]
      · rw [update_of_ne hf]
  · by_cases hj : j = i
    · subst hj
      rw [update_self]
      exact (h.nodup j).filter _
    · rw [update_of_ne hj]
      exact h.nodup j

theorem attach (h : Linked target back) {e : ε} (he : target e = none) (i : ι) :
    Linked (update target e (some i)) (update back i (back i ++ [e])) := by
  have hnew : ∀ j, e ∉ back j := by
    intro j hmem
    rw [h.mem, he] at hmem
    cases hmem
  refine ⟨fun f j => ?_, fun j => ?_⟩
  · by_cases hf : f = e
    · subst hf
      rw [update_self]
      by_cases hj : j = i
      · subst hj
        simp
      · rw [update_of_ne hj]
        simp [hnew j, Ne.symm hj]
    · rw [update_of_ne hf, ← h.mem]
      by_cases hj : j = i
      · subst hj
        simp [hf]
      · rw [update_of_ne hj]
  · by_cases hj : j = i
    · subst hj
      rw [update_self]
      exact (h.nodup j).append (List.nodup_singleton e)
        (List.disjoint_singleton.mpr (hnew j))
    · rw [update_of_ne hj]
      exact h.nodup j

theorem cut (h : Linked target back) (i : ι) {target' : ε → Option ι}
    (ht : ∀ e, target' e = if e ∈ back i then none else target e) :
    Linked target' (update back i []) := by
  refine ⟨fun e j => ?_, fun j => ?_⟩
  · rw [ht]
    by_cases hj : j = i
    · subst hj
      rw [update_self]
      split
      · simp
      next he => simpa [h.mem] using he
    · rw [update_of_ne hj, h.mem]
      split
      next he =>
        rw [(h.mem e i).mp he]
        simp [Ne.symm hj]
      · rfl
  · by_cases hj : j = i
    · subst hj
      rw [update_self]
      exact List.nodup_nil
    · rw [update_of_ne hj]
      exact h.nodup j

end Linked

end MiddlewareUtils.Lib
