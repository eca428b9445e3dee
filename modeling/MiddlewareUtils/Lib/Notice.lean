import Mathlib.Data.List.Basic

/-!
# Notices of change

A source holds a value and a listener is told when it changes. What counts
as a change is up to an equivalence: two values it relates are the same
value. `changes` reads the notices off the source's history, starting from
the value the listener supposes before it hears anything.

A listener cannot see the history. It keeps the last value it was told and
compares: `Notified` says that this is enough. The notices so far are the
changes of the history, and the value kept is the history's last. The two
rules carry it over one more entry of the history: a value the listener has
already is not told again (`hold`), and any other is (`hear`).
-/

namespace MiddlewareUtils.Lib

variable {α : Type*} {r : α → α → Prop} [DecidableRel r]

def changes (r : α → α → Prop) [DecidableRel r] : α → List α → List α
  | _, [] => []
  | a, b :: bs => if r a b then changes r a bs else b :: changes r b bs

/-- `notices` are the changes of `history`, and `last` is where it ended. -/
structure Notified (r : α → α → Prop) [DecidableRel r] (seed last : α)
    (notices history : List α) : Prop where
  last : r last (history.getLastD seed)
  notices : notices = changes r seed history

theorem changes_concat (hr : Equivalence r) (a v : α) (bs : List α) :
    changes r a (bs ++ [v]) =
      changes r a bs ++ if r (bs.getLastD a) v then [] else [v] := by
  induction bs generalizing a with
  | nil =>
    show (if r a v then [] else [v]) = _
    rfl
  | cons b bs ih =>
    rw [List.getLastD_cons, List.cons_append, changes, changes]
    by_cases hab : r a b
    · -- The reference stays at `a`, which only the empty rest can tell from `b`.
      have hlast : r (bs.getLastD a) v ↔ r (bs.getLastD b) v := by
        cases bs with
        | nil => exact ⟨hr.trans (hr.symm hab), hr.trans hab⟩
        | cons c cs => rw [List.getLastD_cons, List.getLastD_cons]
      rw [if_pos hab, if_pos hab, ih a]
      simp only [hlast]
    · rw [if_neg hab, if_neg hab, ih b, List.cons_append]

namespace Notified

variable {seed last v : α} {notices history : List α}

theorem start (hr : Equivalence r) (seed : α) : Notified r seed seed [] [] :=
  ⟨hr.refl seed, rfl⟩

theorem hold (hr : Equivalence r) (h : Notified r seed last notices history) (hv : r last v) :
    Notified r seed last notices (history ++ [v]) := by
  refine ⟨by rw [List.getLastD_concat]; exact hv, ?_⟩
  rw [changes_concat hr, if_pos (hr.trans (hr.symm h.last) hv), List.append_nil]
  exact h.notices

theorem hear (hr : Equivalence r) (h : Notified r seed last notices history) (hv : ¬ r last v) :
    Notified r seed v (notices ++ [v]) (history ++ [v]) := by
  refine ⟨by rw [List.getLastD_concat]; exact hr.refl v, ?_⟩
  rw [changes_concat hr, if_neg fun hlast => hv (hr.trans h.last hlast), h.notices]

end Notified

end MiddlewareUtils.Lib
