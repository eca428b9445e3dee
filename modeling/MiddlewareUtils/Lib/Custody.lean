import Mathlib.Data.List.Perm.Subperm
import Mathlib.Logic.Function.Basic

/-!
# A shelf and the hands around it

Resources that are taken from a common shelf, used by one process at a time
and put back or thrown away. `Custody` says that nothing is in two places:
no process holds a thing twice or holds what is on the shelf, the shelf has
no thing twice, and no two processes hold the same thing.

A process that rearranges what is in its hands and on the shelf keeps it, as
long as it makes no copies. It may drop things. That is the one rule
`Custody.move`, with "no copies" as a subpermutation; `Custody.fresh` adds a
thing that is nowhere yet.
-/

namespace MiddlewareUtils.Lib

open Function

variable {P R : Type*}

structure Custody (hands : P → List R) (shelf : List R) : Prop where
  nodup : ∀ p, (hands p ++ shelf).Nodup
  apart : ∀ p q r, r ∈ hands p → r ∈ hands q → p = q

namespace Custody

variable {hands : P → List R} {shelf shelf' : List R} {p : P} {l : List R} {r : R}

theorem not_mem_shelf (h : Custody hands shelf) (hr : r ∈ hands p) : r ∉ shelf :=
  fun hs => (List.nodup_append.mp (h.nodup p)).2.2 r hr r hs rfl

theorem shelf_nodup (h : Custody hands shelf) (p : P) : shelf.Nodup :=
  (List.nodup_append.mp (h.nodup p)).2.1

theorem move [DecidableEq P] (h : Custody hands shelf)
    (hsub : (l ++ shelf').Subperm (hands p ++ shelf)) :
    Custody (update hands p l) shelf' := by
  obtain ⟨m, hperm, hsublist⟩ := hsub
  have hnodup : (l ++ shelf').Nodup := hperm.nodup_iff.mp ((h.nodup p).sublist hsublist)
  have hback : ∀ {x}, x ∈ l ++ shelf' → x ∈ hands p ++ shelf :=
    fun hx => hsublist.subset (hperm.mem_iff.mpr hx)
  -- What another process holds is neither in these hands nor on the new shelf.
  have hother : ∀ {q x}, q ≠ p → x ∈ hands q → x ∉ l ++ shelf' := by
    intro q x hq hx hmem
    rcases List.mem_append.mp (hback hmem) with hp | hs
    · exact hq (h.apart q p x hx hp)
    · exact h.not_mem_shelf hx hs
  refine ⟨fun q => ?_, fun q q' x hx hx' => ?_⟩
  · by_cases hq : q = p
    · subst hq
      rw [update_self]
      exact hnodup
    · rw [update_of_ne hq]
      refine List.nodup_append.mpr ⟨(List.nodup_append.mp (h.nodup q)).1,
        (List.nodup_append.mp hnodup).2.1, fun x hx y hy hxy => ?_⟩
      exact hother hq hx (List.mem_append.mpr (Or.inr (hxy ▸ hy)))
  · by_cases hq : q = p
    · by_cases hq' : q' = p
      · rw [hq, hq']
      · subst hq
        rw [update_self] at hx
        rw [update_of_ne hq'] at hx'
        exact absurd (List.mem_append.mpr (Or.inl hx)) (hother hq' hx')
    · rw [update_of_ne hq] at hx
      by_cases hq' : q' = p
      · subst hq'
        rw [update_self] at hx'
        exact absurd (List.mem_append.mpr (Or.inl hx')) (hother hq hx)
      · rw [update_of_ne hq'] at hx'
        exact h.apart q q' x hx hx'

theorem fresh [DecidableEq P] (h : Custody hands shelf) (hhands : ∀ q, r ∉ hands q)
    (hshelf : r ∉ shelf) : Custody (update hands p [r]) shelf := by
  refine ⟨fun q => ?_, fun q q' x hx hx' => ?_⟩
  · by_cases hq : q = p
    · subst hq
      rw [update_self]
      exact List.nodup_cons.mpr ⟨hshelf, h.shelf_nodup q⟩
    · rw [update_of_ne hq]
      exact h.nodup q
  · by_cases hq : q = p
    · by_cases hq' : q' = p
      · rw [hq, hq']
      · subst hq
        rw [update_self, List.mem_singleton] at hx
        rw [update_of_ne hq'] at hx'
        exact absurd (hx ▸ hx') (hhands q')
    · rw [update_of_ne hq] at hx
      by_cases hq' : q' = p
      · subst hq'
        rw [update_self, List.mem_singleton] at hx'
        exact absurd (hx' ▸ hx) (hhands q)
      · rw [update_of_ne hq'] at hx'
        exact h.apart q q' x hx hx'

end Custody

end MiddlewareUtils.Lib
