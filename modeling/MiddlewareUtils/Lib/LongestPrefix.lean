import Mathlib.Data.List.Infix

/-!
# The longest prefix a partial function is defined on

A map from words to values, asked for the longest prefix of a word that it
has a value for. The recursion follows the word and prefers the deeper
answer; `longestPrefix_eq_some` says what the answer means without it.
-/

namespace MiddlewareUtils.Lib

variable {α β : Type*}

def longestPrefix (f : List α → Option β) : List α → Option β
  | [] => f []
  | x :: xs => (longestPrefix (fun p => f (x :: p)) xs).or (f [])

theorem longestPrefix_none (xs : List α) :
    longestPrefix (fun _ => (none : Option β)) xs = none := by
  induction xs with
  | nil => rfl
  | cons x xs ih => rw [longestPrefix, ih, Option.or_self]

theorem longestPrefix_eq_none {f : List α → Option β} {xs : List α} :
    longestPrefix f xs = none ↔ ∀ p, p <+: xs → f p = none := by
  induction xs generalizing f with
  | nil =>
    constructor
    · intro h p hp
      rw [List.prefix_nil.mp hp]
      exact h
    · intro h
      exact h [] (List.prefix_refl _)
  | cons x xs ih =>
    rw [longestPrefix, Option.or_eq_none_iff, ih]
    constructor
    · rintro ⟨hdeep, hhere⟩ p hp
      cases p with
      | nil => exact hhere
      | cons y ys =>
        obtain ⟨rfl, hys⟩ := List.cons_prefix_cons.mp hp
        exact hdeep ys hys
    · intro h
      exact ⟨fun p hp => h _ (List.cons_prefix_cons.mpr ⟨rfl, hp⟩),
        h [] (List.nil_prefix)⟩

theorem longestPrefix_eq_some {f : List α → Option β} {xs : List α} {b : β}
    (h : longestPrefix f xs = some b) :
    ∃ p, p <+: xs ∧ f p = some b ∧ ∀ q, q <+: xs → p.length < q.length → f q = none := by
  induction xs generalizing f with
  | nil =>
    refine ⟨[], List.prefix_refl _, h, ?_⟩
    intro q hq hlen
    rw [List.prefix_nil.mp hq] at hlen
    exact absurd hlen (Nat.lt_irrefl _)
  | cons x xs ih =>
    rw [longestPrefix] at h
    cases hdeep : longestPrefix (fun p => f (x :: p)) xs with
    | some b' =>
      rw [hdeep, Option.some_or] at h
      injection h with h
      subst h
      obtain ⟨p, hp, hf, hmax⟩ := ih hdeep
      refine ⟨x :: p, List.cons_prefix_cons.mpr ⟨rfl, hp⟩, hf, ?_⟩
      intro q hq hlen
      cases q with
      | nil => exact absurd hlen (Nat.not_lt_zero _)
      | cons y ys =>
        obtain ⟨rfl, hys⟩ := List.cons_prefix_cons.mp hq
        exact hmax ys hys (Nat.lt_of_succ_lt_succ hlen)
    | none =>
      rw [hdeep, Option.none_or] at h
      refine ⟨[], List.nil_prefix, h, ?_⟩
      intro q hq hlen
      cases q with
      | nil => exact absurd hlen (Nat.lt_irrefl _)
      | cons y ys =>
        obtain ⟨rfl, hys⟩ := List.cons_prefix_cons.mp hq
        exact longestPrefix_eq_none.mp hdeep ys hys

end MiddlewareUtils.Lib
