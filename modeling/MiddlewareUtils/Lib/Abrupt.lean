import Mathlib.Data.List.Nodup

/-!
# Computations that may stop in the middle

A computation in `EStateM` works on a state and may throw, and what it has
written by then stays written: that is how a panic leaves the state it was
working on. `Goes` is the whole story of such a computation from one state.
Exactly when a condition on that state holds it goes through, to a known
state; otherwise it throws.

There is a rule for each way of putting computations together. The one that
matters is the loop. If a round decides about its own element only, and the
rounds of other elements do not change what it decides, then a loop over
different elements goes through exactly when every element is fine in the
state the loop starts from (`Goes.forM`).
-/

namespace MiddlewareUtils.Lib

variable {ε σ α β : Type}

/-- From `s` the computation returns `r` and leaves `s'`, exactly when `p`. -/
structure Goes (x : EStateM ε σ α) (s : σ) (p : Prop) (r : α) (s' : σ) : Prop where
  through : p → x s = .ok r s'
  stops : ¬ p → ∃ e s'', x s = .error e s''

namespace Goes

variable {x : EStateM ε σ α} {s u v : σ} {p q : Prop} {r : α} {r' : β}

theorem of_eq (h : x s = .ok r u) : Goes x s True r u :=
  ⟨fun _ => h, fun hno => absurd trivial hno⟩

theorem congr (h : Goes x s p r u) (hpq : p ↔ q) : Goes x s q r u :=
  ⟨fun hq => h.through (hpq.mpr hq), fun hno => h.stops fun hp => hno (hpq.mp hp)⟩

theorem bind {k : α → EStateM ε σ β} (hx : Goes x s p r u) (hk : p → Goes (k r) u q r' v) :
    Goes (x >>= k) s (p ∧ q) r' v := by
  refine ⟨fun ⟨hp, hq⟩ => ?_, fun hno => ?_⟩
  · show EStateM.bind x k s = _
    rw [EStateM.bind, hx.through hp]
    exact (hk hp).through hq
  · show ∃ e w, EStateM.bind x k s = .error e w
    by_cases hp : p
    · obtain ⟨e, w, hw⟩ := (hk hp).stops fun hq => hno ⟨hp, hq⟩
      rw [EStateM.bind, hx.through hp]
      exact ⟨e, w, hw⟩
    · obtain ⟨e, w, hw⟩ := hx.stops hp
      rw [EStateM.bind, hw]
      exact ⟨e, w, rfl⟩

theorem after {k : α → EStateM ε σ β} (hx : x s = .ok r u) (hk : Goes (k r) u q r' v) :
    Goes (x >>= k) s q r' v :=
  ((of_eq hx).bind fun _ => hk).congr (and_iff_right trivial)

theorem before {k : α → EStateM ε σ β} (hx : Goes x s p r u) (hk : k r u = .ok r' v) :
    Goes (x >>= k) s p r' v :=
  (hx.bind fun _ => of_eq hk).congr (and_iff_left trivial)

theorem forM {x : α → EStateM ε σ PUnit} {f : σ → α → σ} {P : σ → α → Prop}
    {I : σ → Prop} (hround : ∀ s a, I s → Goes (x a) s (P s a) ⟨⟩ (f s a))
    (hkeeps : ∀ s a, I s → I (f s a))
    (hothers : ∀ s a b, I s → b ≠ a → (P (f s a) b ↔ P s b)) {l : List α}
    (hl : l.Nodup) {s : σ} (hs : I s) :
    Goes (l.forM x) s (∀ a ∈ l, P s a) ⟨⟩ (l.foldl f s) := by
  induction l generalizing s with
  | nil => exact (of_eq rfl).congr ⟨fun _ => nofun, fun _ => trivial⟩
  | cons a l ih =>
    obtain ⟨ha, hl⟩ := List.nodup_cons.mp hl
    have hrest : (∀ b ∈ l, P (f s a) b) ↔ ∀ b ∈ l, P s b := by
      constructor
      · intro h b hb
        exact (hothers s a b hs fun hba => ha (hba ▸ hb)).mp (h b hb)
      · intro h b hb
        exact (hothers s a b hs fun hba => ha (hba ▸ hb)).mpr (h b hb)
    have hall := (hround s a hs).bind (k := fun _ => l.forM x) fun _ => ih hl (hkeeps s a hs)
    refine hall.congr ?_
    rw [hrest, List.forall_mem_cons]

end Goes

end MiddlewareUtils.Lib
