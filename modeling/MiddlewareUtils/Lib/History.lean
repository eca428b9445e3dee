import Mathlib.Data.List.Basic

/-!
# What came before

A log that only grows at its end can be asked, at each of its events, what
had happened until then. `Precedes P log` says that every event of the log
stands in the relation `P` to the events before it. It is kept by appending
events that do, and that is the whole of it: a statement about the order of
a history is proved one step at a time, like an invariant.
-/

namespace MiddlewareUtils.Lib

variable {ε : Type*} {P : List ε → ε → Prop} {log evs : List ε} {e : ε}

/-- Every entry of the log is preceded by what `P` asks for. -/
def Precedes (P : List ε → ε → Prop) (log : List ε) : Prop :=
  ∀ pre e post, log = pre ++ e :: post → P pre e

namespace Precedes

theorem nil : Precedes P [] := by
  intro pre e post h
  exact absurd h.symm (List.append_ne_nil_of_right_ne_nil pre (List.cons_ne_nil e post))

theorem snoc (h : Precedes P log) (he : P log e) : Precedes P (log ++ [e]) := by
  intro pre e' post hlog
  rcases List.eq_nil_or_concat post with rfl | ⟨post, last, rfl⟩
  · obtain ⟨rfl, rfl⟩ := List.append_singleton_inj.mp hlog
    exact he
  · refine h pre e' post ?_
    rw [List.concat_eq_append, ← List.cons_append, ← List.append_assoc] at hlog
    exact (List.append_inj' hlog rfl).1

theorem append (h : Precedes P log) (hevs : ∀ e ∈ evs, ∀ pre, P pre e) :
    Precedes P (log ++ evs) := by
  induction evs generalizing log with
  | nil =>
    rw [List.append_nil]
    exact h
  | cons e evs ih =>
    rw [List.append_cons]
    exact ih (h.snoc (hevs e List.mem_cons_self log))
      fun e' he' => hevs e' (List.mem_cons_of_mem e he')

end Precedes

end MiddlewareUtils.Lib
