import Mathlib.Algebra.BigOperators.Group.List.Basic
import Mathlib.Algebra.Order.Group.Defs
import Mathlib.Algebra.Order.Group.MinMax
import Mathlib.Data.List.Infix
import Mathlib.Order.Bounds.Basic

/-!
# The largest sum of a suffix

One running number that takes each new term and is held at zero from below
is the largest sum any suffix of the terms has, the empty suffix included.
Nothing has to be remembered of the terms for it: a suffix of the longer
list is empty, or it is a suffix of the shorter one with the new term.
-/

namespace MiddlewareUtils.Lib

variable {K : Type*} [AddCommGroup K] [LinearOrder K]

def MaxSuffixSum (xs : List K) (m : K) : Prop := IsGreatest {x | ∃ ys, ys <:+ xs ∧ x = ys.sum} m

namespace MaxSuffixSum

variable {xs : List K} {m x b : K}

theorem nil : MaxSuffixSum ([] : List K) 0 := by
  refine ⟨⟨[], List.suffix_refl _, rfl⟩, ?_⟩
  rintro x ⟨ys, hys, rfl⟩
  rw [List.suffix_nil.mp hys, List.sum_nil]

theorem snoc [IsOrderedAddMonoid K] (h : MaxSuffixSum xs m) (x : K) :
    MaxSuffixSum (xs ++ [x]) (max 0 (m + x)) := by
  constructor
  · rcases le_total 0 (m + x) with hle | hle
    · obtain ⟨ys, ⟨pre, hpre⟩, hm⟩ := h.1
      refine ⟨ys ++ [x], ⟨pre, by rw [← List.append_assoc, hpre]⟩, ?_⟩
      rw [max_eq_right hle, List.sum_append, List.sum_singleton, hm]
    · exact ⟨[], List.nil_suffix, by rw [max_eq_left hle, List.sum_nil]⟩
  · rintro y ⟨ys, hys, rfl⟩
    rcases List.eq_nil_or_concat ys with rfl | ⟨zs, z, rfl⟩
    · exact le_max_left _ _
    · rw [List.concat_eq_append] at hys ⊢
      obtain ⟨pre, hpre⟩ := hys
      rw [← List.append_assoc] at hpre
      obtain ⟨hzs, hz⟩ := List.append_inj' hpre rfl
      cases hz
      rw [List.sum_append, List.sum_singleton]
      exact le_max_of_le_right (add_le_add_left (h.2 ⟨zs, ⟨pre, hzs⟩, rfl⟩) x)

theorem le_iff (h : MaxSuffixSum xs m) : b ≤ m ↔ ∃ ys, ys <:+ xs ∧ b ≤ ys.sum := by
  constructor
  · intro hb
    obtain ⟨ys, hys, hm⟩ := h.1
    exact ⟨ys, hys, hm ▸ hb⟩
  · rintro ⟨ys, hys, hb⟩
    exact hb.trans (h.2 ⟨ys, hys, rfl⟩)

end MaxSuffixSum

theorem infix_snoc {α : Type*} {ys xs : List α} {x : α} (h : ys <:+: xs ++ [x]) :
    ys <:+: xs ∨ ys <:+ xs ++ [x] := by
  obtain ⟨pre, post, h⟩ := h
  rcases List.eq_nil_or_concat post with rfl | ⟨post, z, rfl⟩
  · exact .inr ⟨pre, by rw [← h, List.append_nil]⟩
  · rw [List.concat_eq_append, ← List.append_assoc] at h
    exact .inl ⟨pre, post, (List.append_inj' h rfl).1⟩

end MiddlewareUtils.Lib
