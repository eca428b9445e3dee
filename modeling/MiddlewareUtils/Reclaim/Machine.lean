import MiddlewareUtils.Lib.Run
import MiddlewareUtils.Reclaim.Table

/-!
# The reclaim table at work

Every goroutine that touches the table is a process: an Open together with
the drop of the holder it bound, a grace callback, and a Reset. Its program
counter names the next lock-held function or the hook it is inside. A hook
call is two steps, the start and the return, so anything may happen while a
hook runs; create and the hooks may panic whenever they are set.

A holder's context is watched in one of two ways. With a `Done` channel,
`context.AfterFunc` starts the drop once the context is done. Without one,
`watch` polls: it looks at `finished`, then at `ctx.Err()`, and only then
drops.

`log` records what happened in order: hook calls with their slot and key,
binds and releases with their process, what Open returned, and when a
context ended.
-/

namespace MiddlewareUtils.Reclaim

inductive Hook where
  | create
  | sleep
  | wake
  | close
  deriving DecidableEq, Repr

/-- What the log keeps: hook calls, holders coming and going, and results. -/
inductive Event where
  | start (h : Hook) (i : ℕ) (key : String)
  | ret (h : Hook) (i : ℕ) (key : String) (ok : Bool)
  | stored (i : ℕ) (hooks : Hooks)
  | bind (p i : ℕ)
  | release (p i : ℕ)
  /-- Open returned the value of slot `i`, bound for context `c`. -/
  | opened (p i c : ℕ)
  | failed (p : ℕ) (err : OpenError)
  | ctxDone (c : ℕ)
  /-- `parkAsleep` armed a grace timer. -/
  | asleep (i timer due : ℕ)
  /-- `claimExpire` took the slot, for the callback of `timer` or for a drop. -/
  | expired (i : ℕ) (timer : Option ℕ) (now : ℕ)
  deriving DecidableEq, Repr

/-- Who a process is. -/
inductive Caller where
  /-- `pollsErr` is a context without a `Done` channel. -/
  | opener (key : String) (ctx : ℕ) (pollsErr : Bool)
  | grace (timer : ℕ)
  | resetter
  deriving DecidableEq, Repr

/-- Where a process goes once Close has returned. -/
inductive AfterClose where
  /-- `unmapAfterClose` of the slot that kept the key. -/
  | unmap (i : ℕ) (err : Option OpenError)
  | finish (err : Option OpenError)
  | reset (rest : List ℕ)
  deriving DecidableEq, Repr

inductive Pc (V : Type) where
  | lookup
  | parked (i ready : ℕ)
  | createErrOf (i : ℕ)
  | createCall (i : ℕ)
  | createRun (i : ℕ)
  | publishPut (i : ℕ) (value : V) (hooks : Hooks)
  | createFailed (i : ℕ) (err : OpenError)
  | wakeCall (i : ℕ)
  | wakeRun (i : ℕ)
  | publishWake (i : ℕ)
  | finishBind (i : ℕ)
  | dropWhenDone (i : ℕ)
  /-- Open has returned the value; the holder is watched. -/
  | live (i : ℕ)
  /-- `watch` found `finished` open and reads `ctx.Err()`. -/
  | watchErr (i : ℕ)
  | release (i : ℕ) (err : Option OpenError)
  | claimDrop (i : ℕ) (err : Option OpenError)
  | dropParked (i ready : ℕ) (err : Option OpenError)
  | sleepCall (i : ℕ) (err : Option OpenError)
  | sleepRun (i : ℕ) (err : Option OpenError)
  | slept (i : ℕ) (err : Option OpenError)
  /-- `endBusyAfterPanic`, with the error waiters replay and the one Open returns. -/
  | panicked (i : ℕ) (createErr err : Option OpenError)
  | closeReady (i closer ready : ℕ) (err : Option OpenError)
  | claimExpire (i : ℕ) (err : Option OpenError)
  | closeCall (i : ℕ) (after : AfterClose)
  | closeRun (i : ℕ) (after : AfterClose)
  | unmapClosed (i : ℕ) (err : Option OpenError)
  | closeFinal (ready : ℕ) (err : Option OpenError)
  | takeAll
  | resetNext (rest : List ℕ)
  | resetSleepCall (i : ℕ) (rest : List ℕ)
  | resetSleepRun (i : ℕ) (rest : List ℕ)
  | finished

/-- What the environment says at a step: nothing, how create or a hook came
out, or the order in which Reset meets the mapped slots. -/
inductive Input (V : Type) where
  | none
  | created (value : V) (hooks : Hooks)
  | failed (err : String)
  | panicked (recovered : String)
  | order (slots : List ℕ)

/-- What a process can read besides the table. -/
structure Env where
  p : ℕ
  caller : Caller
  now : ℕ
  ctxErr : ℕ → Option String

variable {V : Type}

/-- Open returns `err` if there is one; a drop on a watcher returns nothing. -/
def leave (p : ℕ) : Option OpenError → List Event
  | none => []
  | some e => [.failed p e]

/-- The callback's timer, for a process that is one. -/
def Caller.timer : Caller → Option ℕ
  | grace timer => some timer
  | _ => none

/-- The next step of a process. -/
def advance (env : Env) (t : Table V) (inp : Input V) :
    Pc V → Option (Table V × Pc V × List Event)
  | .lookup =>
    match env.caller with
    | .opener key _ _ =>
      match t.lookupOpen key with
      | (t', .create i) => some (t', .createCall i, [])
      | (t', .bind i) => some (t', .finishBind i, [.bind env.p i])
      | (t', .wake i) => some (t', .wakeCall i, [.bind env.p i])
      | (t', .park i ready) => some (t', .parked i ready, [])
      | (t', .retry) => some (t', .lookup, [])
    | _ => none
  | .parked i ready => if t.chans ready = 0 then none else some (t, .createErrOf i, [])
  | .createErrOf i =>
    match (t.slots i).createErr with
    | some e => some (t, .finished, [.failed env.p e])
    | none => some (t, .lookup, [])
  | .createCall i => some (t, .createRun i, [.start .create i (t.slots i).key])
  | .createRun i =>
    let key := (t.slots i).key
    match inp with
    | .created v hooks => some (t, .publishPut i v hooks, [.ret .create i key true])
    | .failed err => some (t, .createFailed i (.create err), [.ret .create i key false])
    | .panicked r => some (t, .createFailed i (.createPanic key r), [.ret .create i key false])
    | _ => none
  | .publishPut i v hooks =>
    some (t.publishPut i v hooks, .finishBind i, [.stored i hooks, .bind env.p i])
  | .createFailed i err => some (t.endBusySlot i (some err), .finished, [.failed env.p err])
  | .wakeCall i => some (t, .wakeRun i, [.start .wake i (t.slots i).key])
  | .wakeRun i =>
    let s := t.slots i
    match inp with
    | .none => some (t, .publishWake i, [.ret .wake i s.key true])
    | .panicked r =>
      if s.hooks.wake then
        let err := OpenError.wakePanic s.key r
        some (t, .panicked i (some err) (some err), [.ret .wake i s.key false])
      else none
    | _ => none
  | .publishWake i => some (t.publishWake i, .finishBind i, [])
  | .finishBind i =>
    match env.caller with
    | .opener _ ctx _ =>
      match env.ctxErr ctx with
      | some err => some (t, .release i (some (.context err)), [])
      | none => some (t, .dropWhenDone i, [])
    | _ => none
  | .dropWhenDone i =>
    match env.caller with
    | .opener _ ctx pollsErr =>
      let opened := [Event.opened env.p i ctx]
      if pollsErr = true ∧ (t.slots i).finished = false then some (t, .finished, opened)
      else some (t, .live i, opened)
    | _ => none
  | .live i =>
    match env.caller with
    | .opener _ ctx pollsErr =>
      if pollsErr then
        if (t.slots i).finished then some (t, .watchErr i, [])
        else some (t, .finished, [])
      else if (env.ctxErr ctx).isSome then some (t, .release i none, [])
      else none
    | _ => none
  | .watchErr i =>
    match env.caller with
    | .opener _ ctx _ =>
      if (env.ctxErr ctx).isSome then some (t, .release i none, [])
      else some (t, .live i, [])
    | _ => none
  | .release i err => some (t.releaseHolder i, .claimDrop i err, [.release env.p i])
  | .claimDrop i err =>
    match t.claimDrop i with
    | (t', .park ready) => some (t', .dropParked i ready err, [])
    | (t', .stop) => some (t', .finished, leave env.p err)
    | (t', .claim) => some (t', .sleepCall i err, [])
  | .dropParked i ready err =>
    if t.chans ready = 0 then none else some (t, .claimDrop i err, [])
  | .sleepCall i err => some (t, .sleepRun i err, [.start .sleep i (t.slots i).key])
  | .sleepRun i err =>
    let s := t.slots i
    match inp with
    | .none => some (t, .slept i err, [.ret .sleep i s.key true])
    | .panicked _ =>
      if s.hooks.sleep then some (t, .panicked i none err, [.ret .sleep i s.key false])
      else none
    | _ => none
  | .slept i err =>
    if (t.slots i).hooks.enforceCloseBeforeOpen = true ∧ t.grace = 0 then
      some (t, .closeCall i (.unmap i err), [])
    else
      match t.parkAsleep i env.now with
      | (t', true) =>
        some (t', .finished, .asleep i t.nextTimer (env.now + t.grace) :: leave env.p err)
      | (t', false) => some (t', .claimExpire i err, [])
  | .panicked i createErr err =>
    if (t.slots i).hooks.enforceCloseBeforeOpen then
      some (t.installCloser i createErr,
        .closeReady i t.nextSlot (t.slots i).ready err, [])
    else some (t.endBusySlot i createErr, .closeCall i (.finish err), [])
  | .closeReady i closer ready err =>
    some (t.closeChan ready, .closeCall i (.unmap closer err), [])
  | .claimExpire i err =>
    match t.claimExpire i with
    | (t', .skip) => some (t', .finished, leave env.p err)
    | (t', .enforce) =>
      some (t', .closeCall i (.unmap i err), [.expired i env.caller.timer env.now])
    | (t', .dispose) =>
      some (t', .closeCall i (.finish err), [.expired i env.caller.timer env.now])
  | .closeCall i after => some (t, .closeRun i after, [.start .close i (t.slots i).key])
  | .closeRun i after =>
    let s := t.slots i
    let next : Pc V := match after with
      | .unmap j err => .unmapClosed j err
      | .finish _ => .finished
      | .reset rest => .resetNext rest
    let left := match after with
      | .finish err => leave env.p err
      | _ => []
    match inp with
    | .none => some (t, next, .ret .close i s.key true :: left)
    | .panicked _ =>
      if s.hooks.close then some (t, next, .ret .close i s.key false :: left) else none
    | _ => none
  | .unmapClosed i err => some (t.unmapLocked i, .closeFinal (t.slots i).ready err, [])
  | .closeFinal ready err => some (t.closeChan ready, .finished, leave env.p err)
  | .takeAll =>
    match inp with
    | .order slots =>
      if slots.isPerm t.mapped then some (t.takeAll, .resetNext slots, []) else none
    | _ => none
  | .resetNext [] => some (t, .finished, [])
  | .resetNext (i :: rest) =>
    match (t.slots i).state with
    | .awake => some (t.endResetSlot i, .resetSleepCall i rest, [])
    | .asleep => some (t.endResetSlot i, .closeCall i (.reset rest), [])
    | .busy | .gone => some (t.endResetSlot i, .resetNext rest, [])
  | .resetSleepCall i rest => some (t, .resetSleepRun i rest, [.start .sleep i (t.slots i).key])
  | .resetSleepRun i rest =>
    let s := t.slots i
    match inp with
    | .none => some (t, .closeCall i (.reset rest), [.ret .sleep i s.key true])
    | .panicked _ =>
      if s.hooks.sleep then
        some (t, .closeCall i (.reset rest), [.ret .sleep i s.key false])
      else none
    | _ => none
  | .finished => none

/-! ## The world of one table -/

/-- A goroutine in the table's code. -/
structure Proc (V : Type) where
  caller : Caller
  pc : Pc V

/-- A table, its clock, the contexts and any number of goroutines. -/
structure World (V : Type) where
  table : Table V
  now : ℕ
  ctxErr : ℕ → Option String
  procs : ℕ → Option (Proc V)
  next : ℕ
  log : List Event

/-- What can happen next; `run` is a step of a goroutine. -/
inductive Action (V : Type) where
  | openKey (key : String) (ctx : ℕ) (pollsErr : Bool)
  | cancel (ctx : ℕ) (err : String)
  | reset
  | tick (elapsed : ℕ)
  /-- An armed timer that is due starts its callback. -/
  | fire (timer : ℕ)
  | run (p : ℕ) (inp : Input V)

namespace World

/-- A table from `New`. -/
def init (grace : ℤ) : World V where
  table := Table.new grace
  now := 0
  ctxErr := fun _ => none
  procs := fun _ => none
  next := 0
  log := []

def setProc (w : World V) (p : ℕ) (caller : Caller) (pc : Pc V) : World V :=
  { w with procs := Function.update w.procs p (some ⟨caller, pc⟩) }

def spawn (w : World V) (caller : Caller) (pc : Pc V) : World V :=
  { w.setProc w.next caller pc with next := w.next + 1 }

def env (w : World V) (p : ℕ) (caller : Caller) : Env := ⟨p, caller, w.now, w.ctxErr⟩

def runProc (w : World V) (p : ℕ) (inp : Input V) : Option (World V) :=
  match w.procs p with
  | none => none
  | some ⟨caller, pc⟩ =>
    match advance (w.env p caller) w.table inp pc with
    | none => none
    | some (t, pc', evs) =>
      some (({ w with table := t, log := w.log ++ evs } : World V).setProc p caller pc')

def runFire (w : World V) (timer : ℕ) : Option (World V) :=
  if (w.table.timers timer).status = .armed ∧ (w.table.timers timer).due ≤ w.now then
    some (({ w with table := { w.table with
        timers := Function.update w.table.timers timer
          { w.table.timers timer with status := .started } } } : World V).spawn
      (.grace timer) (.claimExpire (w.table.timers timer).slot none))
  else none

/-- A context ends once, with the error it ends with. -/
def runCancel (w : World V) (ctx : ℕ) (err : String) : Option (World V) :=
  match w.ctxErr ctx with
  | some _ => none
  | none =>
    some { w with
      ctxErr := Function.update w.ctxErr ctx (some err)
      log := w.log ++ [Event.ctxDone ctx] }

/-- One step, or `none` where the action is not possible. -/
def step (w : World V) : Action V → Option (World V)
  | .openKey key ctx pollsErr => some (w.spawn (.opener key ctx pollsErr) .lookup)
  | .cancel ctx err => w.runCancel ctx err
  | .reset => some (w.spawn .resetter .takeAll)
  | .tick elapsed => some { w with now := w.now + elapsed }
  | .fire timer => w.runFire timer
  | .run p inp => w.runProc p inp

end World

end MiddlewareUtils.Reclaim
