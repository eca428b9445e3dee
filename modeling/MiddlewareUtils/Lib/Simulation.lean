import Mathlib.Logic.Basic
import Mathlib.Data.List.Basic

/-!
# Two machines that answer alike

A deterministic machine with answers is `f : σ → α → σ × β`; driven by a
list of inputs it gives a list of answers. Two of them are compared answer
by answer, so the relation that carries the comparison may speak of the
inputs still to come: a bound on what is left to read is then part of the
relation, and need not be threaded through the induction by hand.
-/

namespace MiddlewareUtils.Lib

variable {σ τ α β : Type*}

/-- The answers of a run. -/
def outputs (f : σ → α → σ × β) : σ → List α → List β
  | _, [] => []
  | s, a :: as => (f s a).2 :: outputs f (f s a).1 as

theorem outputs_cons (f : σ → α → σ × β) (s : σ) (a : α) (as : List α) :
    outputs f s (a :: as) = (f s a).2 :: outputs f (f s a).1 as := rfl

/-- Related states answer the next input alike and stay related for the
rest of the inputs. -/
def Simulates (f : σ → α → σ × β) (g : τ → α → τ × β) (R : σ → τ → List α → Prop) : Prop :=
  ∀ s t a as, R s t (a :: as) → (f s a).2 = (g t a).2 ∧ R (f s a).1 (g t a).1 as

theorem Simulates.outputs_eq {f : σ → α → σ × β} {g : τ → α → τ × β}
    {R : σ → τ → List α → Prop} (h : Simulates f g R) {s : σ} {t : τ} {as : List α}
    (hR : R s t as) : outputs f s as = outputs g t as := by
  induction as generalizing s t with
  | nil => rfl
  | cons a as ih =>
    obtain ⟨hans, hrest⟩ := h s t a as hR
    rw [outputs_cons, outputs_cons, hans, ih hrest]

end MiddlewareUtils.Lib
