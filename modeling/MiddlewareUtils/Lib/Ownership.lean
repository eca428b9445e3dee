import Mathlib.Logic.Function.Basic

/-!
# Resources with one owner

The concurrent components of this development hand resources from one
goroutine to the next: a reclaim slot that is busy, a pooled socket that is
checked out, a window whose delta is being flushed. The discipline is the
same each time. What a process owns is read off its program counter, an
owned resource is in the state its owner left it in, a resource nobody owns
is at rest, and no two processes own the same one.

`Owned` says that, and the two rules say how it survives. `Owned.frame` is
a step that moves no process: the resources may change as long as owners
and resting places cannot tell. `Owned.move` is a step of one process: it
may take what nobody owns, keep or give back what it has, and touch nothing
else.
-/

namespace MiddlewareUtils.Lib

open Function

variable {P L R S : Type*}

structure Owned (owns : L → R → Prop) (ok : L → R → S → Prop) (rests : R → S → Prop)
    (pcs : P → L) (st : R → S) : Prop where
  held : ∀ p r, owns (pcs p) r → ok (pcs p) r (st r)
  unique : ∀ p q r, owns (pcs p) r → owns (pcs q) r → p = q
  rests : ∀ r, (∀ p, ¬ owns (pcs p) r) → rests r (st r)

variable {owns : L → R → Prop} {ok : L → R → S → Prop} {rests : R → S → Prop}
  {pcs : P → L} {st st' : R → S}

namespace Owned

theorem frame (h : Owned owns ok rests pcs st)
    (hok : ∀ p r, owns (pcs p) r → ok (pcs p) r (st r) → ok (pcs p) r (st' r))
    (hrests : ∀ r, rests r (st r) → rests r (st' r)) :
    Owned owns ok rests pcs st' where
  held := fun p r hp => hok p r hp (h.held p r hp)
  unique := h.unique
  rests := fun r hr => hrests r (h.rests r hr)

theorem move [DecidableEq P] (h : Owned owns ok rests pcs st) {p : P} {l : L}
    (held : ∀ r, owns l r → ok l r (st' r))
    (mine : ∀ r, owns l r → owns (pcs p) r ∨ ∀ q, ¬ owns (pcs q) r)
    (given : ∀ r, owns (pcs p) r → ¬ owns l r → rests r (st' r))
    (rest : ∀ r, ¬ owns (pcs p) r → ¬ owns l r → st' r = st r) :
    Owned owns ok rests (update pcs p l) st' := by
  -- Another process cannot own what `p` owns before or after the step.
  have hother : ∀ q r, q ≠ p → owns (pcs q) r → ¬ owns (pcs p) r ∧ ¬ owns l r := by
    intro q r hq hr
    have hnot : ¬ owns (pcs p) r := fun hp => hq (h.unique q p r hr hp)
    refine ⟨hnot, fun hl => ?_⟩
    rcases mine r hl with hp | hnone
    · exact hnot hp
    · exact hnone q hr
  refine ⟨?_, ?_, ?_⟩
  · intro q r hr
    by_cases hq : q = p
    · subst hq
      rw [update_self] at hr ⊢
      exact held r hr
    · rw [update_of_ne hq] at hr ⊢
      obtain ⟨hp, hl⟩ := hother q r hq hr
      rw [rest r hp hl]
      exact h.held q r hr
  · intro q q' r hr hr'
    by_cases hq : q = p
    · by_cases hq' : q' = p
      · rw [hq, hq']
      · subst hq
        rw [update_self] at hr
        rw [update_of_ne hq'] at hr'
        exact absurd hr (hother q' r hq' hr').2
    · rw [update_of_ne hq] at hr
      by_cases hq' : q' = p
      · subst hq'
        rw [update_self] at hr'
        exact absurd hr' (hother q r hq hr).2
      · rw [update_of_ne hq'] at hr'
        exact h.unique q q' r hr hr'
  · intro r hr
    have hl : ¬ owns l r := by
      have hp := hr p
      rwa [update_self] at hp
    by_cases hp : owns (pcs p) r
    · exact given r hp hl
    · rw [rest r hp hl]
      refine h.rests r fun q hq => ?_
      by_cases hqp : q = p
      · subst hqp; exact hp hq
      · have hq' := hr q
        rw [update_of_ne hqp] at hq'
        exact hq' hq

theorem goto [DecidableEq P] (h : Owned owns ok rests pcs st) {p : P} {l : L}
    (hsame : ∀ r, owns l r ↔ owns (pcs p) r)
    (hok : ∀ r, owns (pcs p) r → ok (pcs p) r (st r) → ok l r (st r)) :
    Owned owns ok rests (update pcs p l) st :=
  h.move (fun r hr => hok r ((hsame r).mp hr) (h.held p r ((hsame r).mp hr)))
    (fun r hr => Or.inl ((hsame r).mp hr))
    (fun r hp hl => absurd ((hsame r).mpr hp) hl) (fun _ _ _ => rfl)

end Owned

end MiddlewareUtils.Lib
