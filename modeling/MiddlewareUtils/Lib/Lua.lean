import Mathlib.Data.List.Basic
import Mathlib.Data.Int.Notation
import Mathlib.Tactic.Ring

/-!
# A fragment of Lua

Enough of Lua 5.1 for the scripts a server runs on behalf of a client:
locals, the numeric `for`, arrays of strings that the host provides as
globals, and calls of host functions for their effect. Arrays count from 1,
`#` is the length, and an index outside an array is `nil`. Whatever raises
an error is `none`, and a host function may raise one.

The syntax prints (`Script.text`), so that a script kept as text somewhere
can be compared with the tree that stands for it.

The rule that matters is the one for `for`: an invariant indexed by the
control variable, established at the first value and carried by the body
from each value to the next, holds one past the last, and the loop gets
there (`forLoop_inv`).
-/

namespace MiddlewareUtils.Lib.Lua

inductive Value where
  | nil
  | number (n : ℤ)
  | string (bytes : List UInt8)
  deriving DecidableEq, Repr

inductive Expr where
  | number (n : ℤ)
  | string (s : String)
  | name (x : String)
  /-- The length of a global array. -/
  | length (t : String)
  | index (t : String) (e : Expr)
  | sub (l r : Expr)

inductive Stmt where
  | localS (x : String) (e : Expr)
  | callS (f : String) (args : List Expr)
  | forS (x : String) (first last : Expr) (body : List Stmt)
  | returnS (e : Expr)

abbrev Script := List Stmt

/-! ## Text -/

def Expr.text : Expr → String
  | number n => toString n
  | string s => "'" ++ s ++ "'"
  | name x => x
  | length t => "#" ++ t
  | index t e => t ++ "[" ++ e.text ++ "]"
  | sub l r => l.text ++ " - " ++ r.text

mutual

def Stmt.lines : Stmt → List String
  | .localS x e => ["local " ++ x ++ " = " ++ e.text]
  | .callS f args => [f ++ "(" ++ ", ".intercalate (args.map Expr.text) ++ ")"]
  | .forS x first last body =>
    ["for " ++ x ++ " = " ++ first.text ++ ", " ++ last.text ++ " do"] ++
      (blockLines body).map ("  " ++ ·) ++ ["end"]
  | .returnS e => ["return " ++ e.text]

def blockLines : List Stmt → List String
  | [] => []
  | s :: rest => s.lines ++ blockLines rest

end

def Script.text (script : Script) : String := "\n".intercalate (blockLines script)

/-! ## Meaning -/

structure Env where
  arrays : String → Option (List (List UInt8))
  locals : String → Value

def Env.bind (env : Env) (x : String) (v : Value) : Env :=
  { env with locals := Function.update env.locals x v }

theorem Env.arrays_bind (env : Env) (x : String) (v : Value) :
    (env.bind x v).arrays = env.arrays := rfl

@[simp] theorem Env.locals_bind (env : Env) (x y : String) (v : Value) :
    (env.bind x v).locals y = if y = x then v else env.locals y := by
  simp only [Env.bind, Function.update_apply]

/-- `t[i]`, counting from 1. -/
def at1 (t : List (List UInt8)) (i : ℤ) : Value :=
  if 1 ≤ i then (t[(i - 1).toNat]?).elim .nil .string else .nil

theorem at1_succ {t : List (List UInt8)} {k : ℕ} {x : List UInt8} (h : t[k]? = some x) :
    at1 t (k + 1 : ℤ) = .string x := by
  rw [at1, if_pos (by omega), show ((k : ℤ) + 1 - 1).toNat = k by omega, h]
  rfl

def evalExpr (env : Env) : Expr → Option Value
  | .number n => some (.number n)
  | .string s => some (.string (s.toList.map fun c => UInt8.ofNat c.toNat))
  | .name x => some (env.locals x)
  | .length t => (env.arrays t).map fun l => .number l.length
  | .index t e =>
    match env.arrays t, evalExpr env e with
    | some l, some (.number i) => some (at1 l i)
    | some _, some _ => some .nil
    | _, _ => none
  | .sub l r =>
    match evalExpr env l, evalExpr env r with
    | some (.number m), some (.number n) => some (.number (m - n))
    | _, _ => none

/-- Where a statement leaves the script. -/
inductive Flow where
  | next (env : Env)
  | returned (v : Value)

section

variable {σ : Type*}

/-- The rounds of a `for` from `i`, as many as there are left. -/
def forLoop (body : ℤ → σ → Option (σ × Flow)) : ℕ → ℤ → σ → Option (σ × Option Value)
  | 0, _, s => some (s, none)
  | n + 1, i, s =>
    match body i s with
    | none => none
    | some (s', .returned v) => some (s', some v)
    | some (s', .next _) => forLoop body n (i + 1) s'

theorem forLoop_inv {body : ℤ → σ → Option (σ × Flow)} {P : ℤ → σ → Prop} {n : ℕ} {first : ℤ}
    {s : σ} (hbody : ∀ i s, first ≤ i → i < first + n → P i s →
      ∃ s' env, body i s = some (s', .next env) ∧ P (i + 1) s') (hP : P first s) :
    ∃ s', forLoop body n first s = some (s', none) ∧ P (first + n) s' := by
  induction n generalizing first s with
  | zero => exact ⟨s, rfl, by simpa using hP⟩
  | succ n ih =>
    obtain ⟨s₁, env, hround, hP₁⟩ := hbody first s (by omega) (by omega) hP
    obtain ⟨s', hrest, hP'⟩ := ih (fun i s h₁ h₂ => hbody i s (by omega) (by omega)) hP₁
    refine ⟨s', ?_, ?_⟩
    · rw [forLoop, hround]
      exact hrest
    · rwa [show first + ((n + 1 : ℕ) : ℤ) = first + 1 + n by push_cast; ring]

variable (host : σ → String → List Value → Option σ)

mutual

def execStmt : Stmt → Env → σ → Option (σ × Flow)
  | .localS x e, env, s => (evalExpr env e).map fun v => (s, .next (env.bind x v))
  | .callS f args, env, s =>
    match args.mapM (evalExpr env) with
    | none => none
    | some values => (host s f values).map fun s' => (s', .next env)
  | .forS x first last body, env, s =>
    match evalExpr env first, evalExpr env last with
    | some (.number m), some (.number n) =>
      -- What the body declares ends with its round.
      (forLoop (fun i s => execBlock body (env.bind x (.number i)) s) (n + 1 - m).toNat m s).map
        fun r => (r.1, r.2.elim (.next env) .returned)
    | _, _ => none
  | .returnS e, env, s => (evalExpr env e).map fun v => (s, .returned v)

def execBlock : List Stmt → Env → σ → Option (σ × Flow)
  | [], env, s => some (s, .next env)
  | stmt :: rest, env, s =>
    match execStmt stmt env s with
    | none => none
    | some (s', .returned v) => some (s', .returned v)
    | some (s', .next env') => execBlock rest env' s'

end

/-- A script over these arrays: what it did to the host and what it returned. -/
def run (script : Script) (arrays : String → Option (List (List UInt8))) (s : σ) :
    Option (σ × Value) :=
  match execBlock host script ⟨arrays, fun _ => .nil⟩ s with
  | none => none
  | some (s', .returned v) => some (s', v)
  | some (s', .next _) => some (s', .nil)

variable {host}

theorem execBlock_local {x : String} {e : Expr} {rest : List Stmt} {env : Env} {v : Value} {s : σ}
    (he : evalExpr env e = some v) :
    execBlock host (.localS x e :: rest) env s = execBlock host rest (env.bind x v) s := by
  rw [execBlock, execStmt, he]
  rfl

theorem execBlock_call {f : String} {args : List Expr} {rest : List Stmt} {env : Env}
    {values : List Value} {s s' : σ} (hargs : args.mapM (evalExpr env) = some values)
    (hcall : host s f values = some s') :
    execBlock host (.callS f args :: rest) env s = execBlock host rest env s' := by
  rw [execBlock, execStmt, hargs]
  simp only [hcall, Option.map_some]

theorem execBlock_for {x : String} {first last : Expr} {body rest : List Stmt} {env : Env}
    {m n : ℤ} {s s' : σ} (hfirst : evalExpr env first = some (.number m))
    (hlast : evalExpr env last = some (.number n))
    (hloop : forLoop (fun i s => execBlock host body (env.bind x (.number i)) s)
      (n + 1 - m).toNat m s = some (s', none)) :
    execBlock host (.forS x first last body :: rest) env s = execBlock host rest env s' := by
  rw [execBlock, execStmt, hfirst, hlast]
  simp only [hloop, Option.map_some, Option.elim_none]

theorem execBlock_return {e : Expr} {rest : List Stmt} {env : Env} {v : Value} {s : σ}
    (he : evalExpr env e = some v) :
    execBlock host (.returnS e :: rest) env s = some (s, .returned v) := by
  rw [execBlock, execStmt, he]
  rfl

end

end MiddlewareUtils.Lib.Lua
