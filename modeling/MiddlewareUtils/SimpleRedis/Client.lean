import MiddlewareUtils.Lib.Run
import MiddlewareUtils.SimpleRedis.Pool

/-!
# Commands on one client

Every command is a process that runs `exec`, and so is every `Close`. The
program counter of a command names where it is: in the retry loop, in
`borrowSocket`, in `dial`, in `do` on a socket (`Stage`), or in the release
that follows. What a process reads of its context, the clock, the pool and
its socket it reads at the step it takes, so anything may happen between two
checks.

The environment answers where Go would wait: which case of a select fires,
how a dial, a write or a read comes out, how many bytes a read returns. It
may fail any I/O at any time. Peers are part of it. On each socket they
answer the commands they received in order, each with one well-formed reply
and with nothing else, and they may die at any byte; what a dying peer had
sent may be lost from any point on.

A panic can unwind a command wherever `takeIdleConn`, `dial` or `do` runs.
`borrowSocket` then returns the turn, and `runOnConn` releases its socket as
not reusable.
-/

namespace MiddlewareUtils.SimpleRedis

open Lib

/-! ## Contexts and errors -/

/-- `Err()` and `Deadline()` of the context a command runs under. -/
structure Ctx where
  err : Option CtxErr
  deadline : Option ℤ
  deriving DecidableEq, Repr

/-- The context's error at time `now`, if it has one. -/
def contextStop (ctx : Ctx) (now : ℤ) : Option CtxErr :=
  match ctx.err with
  | some e => some e
  | none =>
    match ctx.deadline with
    | some deadline => if deadline ≤ now then some .deadlineExceeded else none
    | none => none

/-- How socket I/O fails: `os.ErrDeadlineExceeded`, or anything else. -/
inductive IoError where
  | deadline
  | other
  deriving DecidableEq, Repr

def ioError : IoError → Err
  | .deadline => .timeout
  | .other => .unreachable

def ioOrContext (ctx : Ctx) (now : ℤ) (e : IoError) : Err :=
  match contextStop ctx now with
  | some stop => .context stop
  | none => if ctx.deadline.isSome ∧ e = .deadline then .context .deadlineExceeded else ioError e

def libraryTimeout (libraryOwnsDeadline : Bool) (e : Err) : Err :=
  if libraryOwnsDeadline = true ∧ e = .context .deadlineExceeded then .timeout else e

def isRetryableRedisReply (e : Err) : Bool :=
  e.text == ascii "ERR max number of clients reached" ||
    ["LOADING ", "READONLY ", "MASTERDOWN ", "CLUSTERDOWN ", "TRYAGAIN "].any (hasPrefix e.text)

def shouldRetry (e : Err) (handshakeFailed : Bool) : Bool :=
  match e with
  | .context _ => false
  | .timeout => false
  | e =>
    if handshakeFailed then false
    else if e = .unreachable then true
    else isRetryableRedisReply e

/-- The attempt bound of `retryLimits`. -/
def retryLimit (maxRetries : ℤ) : ℤ :=
  if maxRetries = -1 then 0 else if maxRetries = 0 then 3 else maxRetries

/-! ## The state of a command -/

/-- The variables of one `exec`. -/
structure Call where
  args : List Bytes
  ctx : Ctx
  libraryOwnsDeadline : Bool
  attempt : ℕ
  skipIdle : Bool
  fromIdle : Bool
  last : Option Err
  deriving DecidableEq, Repr

def Call.begin (args : List Bytes) (ctx : Ctx) : Call := ⟨args, ctx, false, 0, false, false, none⟩

def bindCommandDeadline (cfg : Config) (now : ℤ) (c : Call) : Call :=
  let libraryDeadline := now + cfg.commandTimeoutOf
  let own : Call := { c with
    ctx := { c.ctx with deadline := some libraryDeadline }, libraryOwnsDeadline := true }
  match c.ctx.deadline with
  | some parent => if parent ≤ libraryDeadline then c else own
  | none => own

/-- The next round of the retry loop. -/
def Call.again (c : Call) (e : Err) : Call := { c with attempt := c.attempt + 1, last := some e }

/-- I/O failed on a socket from the unused list: later attempts dial. -/
def Call.noteDead (c : Call) (e : Err) : Call :=
  if c.fromIdle = true ∧ e = .unreachable then { c with skipIdle := true } else c

/-- Where `do` is. At `leave` its result is known and only `stopWatch` is left. -/
inductive Stage where
  | enter
  | budget
  | arm
  | write
  | read
  | leave (reply : Decoded) (reusable : Bool)

/-- Why `borrowSocket` has no socket. -/
inductive Failure where
  | err (e : Err) (handshakeFailed : Bool)
  | panicked

/-- How `runOnConn` ends. -/
inductive Ran where
  | returned (reply : Decoded)
  | panicked

/-- Where a command stands in `exec` and the functions it calls. -/
inductive Pc where
  | start
  | attempt
  | backoff
  | borrow
  | borrowCtx
  | takeTurn
  | waitTurn
  /-- The turn is held from here. -/
  | takeIdle
  | sweep (stale : List ℕ) (reused : Option ℕ)
  | dial
  | dialing
  | io (s : ℕ) (verb : Verb) (stage : Stage)
  /-- `dial` closes a socket whose handshake failed. -/
  | hangUp (s : ℕ) (e : Err)
  | refund (f : Failure)
  | borrowFailed (f : Failure)
  /-- `do` has returned to `runOnConn`. -/
  | stopped (s : ℕ) (reply : Decoded) (reusable : Bool)
  | release (s : ℕ) (ran : Ran) (reusable : Bool)
  | closing (s : ℕ) (ran : Ran)
  | freeTurn (ran : Ran)
  | ran (ran : Ran)
  | done

inductive Event where
  /-- `writeCommand` was given the command. -/
  | written (tag : Tag) (args : List Bytes)
  /-- The peer produced this reply for that command. -/
  | answered (tag : Tag) (r : Reply)
  | returned (p : ℕ) (reply : Decoded)
  | panicked (p : ℕ)

/-- What a step of a command meets: a select's case, the network, the peer. -/
inductive Input where
  | none
  /-- A case of a select: a turn, the timer, `ctx.Done`. -/
  | turn
  | timer
  | ctxDone
  /-- How `DialContext` came out. -/
  | connected
  | refused
  /-- How `SetDeadline` and a write came out. A failed write may have delivered
  the whole command. -/
  | ok
  | failed
  | writeFailed (delivered : Bool) (e : IoError)
  /-- How a read came out. -/
  | arrived (n : ℕ)
  | readFailed (e : IoError)

structure Env where
  cfg : Config
  p : ℕ
  now : ℤ

/-! ## `do` -/

/-- What is left of the command budget. -/
def commandBudgetLeft (env : Env) (ctx : Ctx) : ℤ :=
  match ctx.deadline with
  | some deadline => deadline - env.now
  | none => env.cfg.commandTimeoutOf

/-- A fired context wins over what the read returned. -/
def afterRead (ctx : Ctx) (now : ℤ) (reply : Decoded) (reusable : Bool) : Stage :=
  match contextStop ctx now with
  | some e => .leave (.error (.context e)) false
  | none => .leave reply reusable

/-- The steps of `do` up to its return. -/
def doStep (env : Env) (sr : Pool) (inp : Input) (ctx : Ctx) (args : List Bytes) (tag : Tag)
    (s : ℕ) : Stage → Option (Pool × Stage × List Event)
  | .enter =>
    match contextStop ctx env.now with
    | some e => some (sr, .leave (.error (.context e)) false, [])
    | none => some (sr, .budget, [])
  | .budget =>
    if commandBudgetLeft env ctx ≤ 0 then
      match contextStop ctx env.now with
      | some e => some (sr, .leave (.error (.context e)) false, [])
      | none => some (sr, .leave (.error .timeout) false, [])
    else some (sr, .arm, [])
  | .arm =>
    match inp with
    | .failed => some (sr, .leave (.error .unreachable) false, [])
    | .ok =>
      -- Unread leftover of a prior command must not be parsed as this one's reply.
      if (sr.sockets s).buffer = [] then some (sr.armWatch s, .write, [])
      else some (sr.armWatch s, .leave (.error .unreachable) false, [])
    | _ => none
  | .write =>
    match inp with
    | .ok => some (sr.deliver s tag, .read, [.written tag args])
    | .writeFailed delivered e =>
      some (if delivered then sr.deliver s tag else sr,
        .leave (.error (ioOrContext ctx env.now e)) false, [.written tag args])
    | _ => none
  | .read =>
    match readReply (sr.sockets s).buffer with
    | .more =>
      match inp with
      | .arrived n =>
        if 0 < n ∧ n ≤ (sr.sockets s).wire.length then some (sr.fill s n, .read, []) else none
      | .readFailed e =>
        some (sr, .leave (.error (ioOrContext ctx env.now e)) false, [])
      | _ => none
    | .fail e => some (sr, afterRead ctx env.now (.error e) false, [])
    | .done reply rest =>
      some (sr.consume s rest, afterRead ctx env.now reply (rest = []), [])
  | .leave _ _ => none

/-! ## `exec` -/

def firstVerb (cfg : Config) : Verb :=
  if cfg.pass ≠ [] then .auth else if cfg.database ≠ [] then .select else .command

/-- The exchange after AUTH. -/
def secondVerb (cfg : Config) : Verb := if cfg.database ≠ [] then .select else .command

/-- The command an exchange sends. -/
def Verb.args (cfg : Config) (c : Call) : Verb → List Bytes
  | auth => [ascii "AUTH", cfg.pass]
  | select => [ascii "SELECT", cfg.database]
  | command => c.args

/-- Where `do` returns to. -/
def afterDo (cfg : Config) (s : ℕ) (reply : Decoded) (reusable : Bool) : Verb → Pc
  | .command => .stopped s reply reusable
  | .auth =>
    match reply with
    | .ok _ => .io s (secondVerb cfg) .enter
    | .error e => .hangUp s e
  | .select =>
    match reply with
    | .ok _ => .io s .command .enter
    | .error e => .hangUp s e

/-- `exec` returns an error. -/
def fails (p : ℕ) (c : Call) (e : Err) : List Event :=
  [.returned p (.error (libraryTimeout c.libraryOwnsDeadline e))]

/-- The next step of a command. -/
def advance (env : Env) (sr : Pool) (inp : Input) (c : Call) :
    Pc → Option (Pool × Call × Pc × List Event)
  | .start =>
    match c.ctx.err with
    | some e => some (sr, c, .done, [.returned env.p (.error (.context e))])
    | none => some (sr, bindCommandDeadline env.cfg env.now c, .attempt, [])
  | .attempt =>
    if retryLimit env.cfg.maxRetries < c.attempt then
      match c.last with
      | some e => some (sr, c, .done, fails env.p c e)
      | none => some (sr, c, .done, [.returned env.p (.error .timeout)])
    else
      match contextStop c.ctx env.now with
      | some e => some (sr, c, .done, fails env.p c (.context e))
      | none => some (sr, c, if 0 < c.attempt then .backoff else .borrow, [])
  | .backoff =>
    match inp with
    | .timer =>
      match contextStop c.ctx env.now with
      | some e => some (sr, c, .done, fails env.p c (.context e))
      | none => some (sr, c, .borrow, [])
    | .ctxDone =>
      match c.ctx.err with
      | some e => some (sr, c, .done, fails env.p c (.context e))
      | none => none
    | _ => none
  | .borrow =>
    if sr.closed then some (sr, c, .borrowFailed (.err .unreachable false), [])
    else some (sr, c, .borrowCtx, [])
  | .borrowCtx =>
    match contextStop c.ctx env.now with
    | some e => some (sr, c, .borrowFailed (.err (.context e) false), [])
    | none => some (sr, c, .takeTurn, [])
  | .takeTurn =>
    if 0 < sr.inUseTurns then some (sr.takeTurn, c, .takeIdle, [])
    else some (sr, c, .waitTurn, [])
  | .waitTurn =>
    match inp with
    | .turn => if 0 < sr.inUseTurns then some (sr.takeTurn, c, .takeIdle, []) else none
    | .ctxDone =>
      match c.ctx.err with
      | some e => some (sr, c, .borrowFailed (.err (.context e) false), [])
      | none => none
    | .timer =>
      match contextStop c.ctx env.now with
      | some e => some (sr, c, .borrowFailed (.err (.context e) false), [])
      | none => some (sr, c, .borrowFailed (.err .poolWait false), [])
    | _ => none
  | .takeIdle =>
    if c.skipIdle then
      if sr.closed then some (sr, c, .refund (.err .unreachable false), [])
      else some (sr, c, .dial, [])
    else
      match sr.takeIdleConn env.cfg env.now with
      | (sr', .closed) => some (sr', c, .refund (.err .unreachable false), [])
      | (sr', .taken reused stale) => some (sr', c, .sweep stale reused, [])
  | .sweep (s :: stale) reused => some (sr.closeConn s, c, .sweep stale reused, [])
  | .sweep [] (some s) => some (sr, { c with fromIdle := true }, .io s .command .enter, [])
  | .sweep [] none => some (sr, c, .dial, [])
  | .dial =>
    match contextStop c.ctx env.now with
    | some e => some (sr, c, .refund (.err (.context e) false), [])
    | none => some (sr, c, .dialing, [])
  | .dialing =>
    match inp with
    | .connected =>
      some (sr.openConn, { c with fromIdle := false },
        .io sr.nextSocket (firstVerb env.cfg) .enter, [])
    | .refused =>
      match contextStop c.ctx env.now with
      | some e => some (sr, c, .refund (.err (.context e) false), [])
      | none => some (sr, c, .refund (.err .unreachable false), [])
    | _ => none
  | .io s verb stage =>
    match stage with
    | .leave reply reusable =>
      some (sr.stopWatch s, c, afterDo env.cfg s reply reusable verb, [])
    | stage =>
      match doStep env sr inp c.ctx (verb.args env.cfg c) ⟨env.p, c.attempt, verb⟩ s stage with
      | some (sr', stage', evs) => some (sr', c, .io s verb stage', evs)
      | none => none
  | .hangUp s e => some (sr.closeConn s, c, .refund (.err e true), [])
  | .refund f => some (sr.freeInUseTurn env.cfg, c, .borrowFailed f, [])
  | .borrowFailed (.err e handshakeFailed) =>
    if sr.closed = true ∨ shouldRetry e handshakeFailed = false then
      some (sr, c, .done, fails env.p c e)
    else some (sr, c.again e, .attempt, [])
  | .borrowFailed .panicked => some (sr, c, .done, [.panicked env.p])
  | .stopped s reply reusable =>
    match contextStop c.ctx env.now with
    | some e => some (sr, c, .release s (.returned (.error (.context e))) false, [])
    | none => some (sr, c, .release s (.returned reply) reusable, [])
  | .release s ran reusable =>
    if reusable then
      match (sr.stamp s env.now).parkIdleConn env.cfg s with
      | (sr', true) => some (sr', c, .freeTurn ran, [])
      | (sr', false) => some (sr', c, .closing s ran, [])
    else some (sr, c, .closing s ran, [])
  | .closing s ran => some (sr.closeConn s, c, .freeTurn ran, [])
  | .freeTurn ran => some (sr.freeInUseTurn env.cfg, c, .ran ran, [])
  | .ran (.returned (.ok values)) => some (sr, c, .done, [.returned env.p (.ok values)])
  | .ran (.returned (.error e)) =>
    if shouldRetry e false then some (sr, (c.noteDead e).again e, .attempt, [])
    else some (sr, c.noteDead e, .done, fails env.p c e)
  | .ran .panicked => some (sr, c, .done, [.panicked env.p])
  | .done => none

/-- A panic unwinds the command: through `runOnConn` when it has a socket there,
else through `borrowSocket`. -/
def unwind (sr : Pool) : Pc → Option (Pool × Pc)
  | .takeIdle => some (sr, .refund .panicked)
  | .dial => some (sr, .refund .panicked)
  | .dialing => some (sr, .refund .panicked)
  | .io s .command _ => some (sr.stopWatch s, .closing s .panicked)
  | .io s _ _ => some (sr.stopWatch s, .refund .panicked)
  | .hangUp _ _ => some (sr, .refund .panicked)
  | _ => none

/-! ## `Close` -/

inductive ClosePc where
  | flag
  | drain
  | each (idleConns : List ℕ)
  | done

def advanceClose (sr : Pool) : ClosePc → Option (Pool × ClosePc)
  | .flag =>
    if sr.closed then some (sr, .done) else some ({ sr with closed := true }, .drain)
  | .drain => some ({ sr with idleConns := [] }, .each sr.idleConns)
  | .each (s :: rest) => some (sr.closeConn s, .each rest)
  | .each [] => some (sr, .done)
  | .done => none

/-! ## The world of one client -/

/-- A call of `exec` or of `Close`. -/
inductive Proc where
  | exec (c : Call) (pc : Pc)
  | close (pc : ClosePc)

/-- A client, its clock and any number of calls. -/
structure World where
  cfg : Config
  pool : Pool
  now : ℤ
  procs : ℕ → Option Proc
  next : ℕ
  log : List Event

/-- What can happen next; `run` is a step of a call. -/
inductive Action where
  | exec (args : List Bytes) (ctx : Ctx)
  | close
  | run (p : ℕ) (inp : Input)
  | panic (p : ℕ)
  | tick (elapsed : ℕ)
  /-- The caller cancels the context of a command. -/
  | cancel (p : ℕ)
  /-- The context of a command notices that its deadline has passed. -/
  | expire (p : ℕ)
  /-- The context of a command is done and starts the callback on its socket. -/
  | startWatch (p : ℕ)
  /-- A started callback closes its socket. -/
  | watchClose (s : ℕ)
  /-- The peer answers the oldest command it has not answered. -/
  | answer (s : ℕ) (r : Reply)
  /-- The peer dies; of what is on the way, `n` bytes arrive. -/
  | cut (s n : ℕ)

namespace World

def init (cfg : Config) : World where
  cfg := cfg
  pool := .new cfg
  now := 0
  procs := fun _ => none
  next := 0
  log := []

def setProc (w : World) (p : ℕ) (proc : Proc) : World :=
  { w with procs := Function.update w.procs p (some proc) }

def spawn (w : World) (proc : Proc) : World :=
  { w.setProc w.next proc with next := w.next + 1 }

def env (w : World) (p : ℕ) : Env := ⟨w.cfg, p, w.now⟩

def setSocket (w : World) (s : ℕ) (sock : Socket) : World :=
  { w with pool := w.pool.setSocket s sock }

def runProc (w : World) (p : ℕ) (inp : Input) : Option World :=
  match w.procs p with
  | none => none
  | some (.exec c pc) =>
    match advance (w.env p) w.pool inp c pc with
    | none => none
    | some (sr, c', pc', evs) =>
      some (({ w with pool := sr, log := w.log ++ evs } : World).setProc p (.exec c' pc'))
  | some (.close pc) =>
    match advanceClose w.pool pc with
    | none => none
    | some (sr, pc') => some (({ w with pool := sr } : World).setProc p (.close pc'))

def runPanic (w : World) (p : ℕ) : Option World :=
  match w.procs p with
  | some (.exec c pc) =>
    match unwind w.pool pc with
    | none => none
    | some (sr, pc') => some (({ w with pool := sr } : World).setProc p (.exec c pc'))
  | _ => none

/-- A context ends once. -/
def endCtx (w : World) (p : ℕ) (e : CtxErr) : Option World :=
  match w.procs p with
  | some (.exec c pc) =>
    if c.ctx.err = none ∧
        (e = .deadlineExceeded → ∃ d ∈ c.ctx.deadline, d ≤ w.now) then
      some (w.setProc p (.exec { c with ctx := { c.ctx with err := some e } } pc))
    else none
  | _ => none

def runStartWatch (w : World) (p : ℕ) : Option World :=
  match w.procs p with
  | some (.exec c (.io s _ _)) =>
    if c.ctx.err.isSome ∧ (w.pool.sockets s).watch = .armed then
      some (w.setSocket s { w.pool.sockets s with watch := .started })
    else none
  | _ => none

def runWatchClose (w : World) (s : ℕ) : Option World :=
  if (w.pool.sockets s).watch = .started then some { w with pool := w.pool.closeConn s } else none

def runAnswer (w : World) (s : ℕ) (r : Reply) : Option World :=
  match (w.pool.sockets s).owed with
  | [] => none
  | tag :: owed =>
    if (w.pool.sockets s).ended = false ∧ r.wellFormed = true then
      some { w.setSocket s { w.pool.sockets s with
          wire := (w.pool.sockets s).wire ++ r.encode, owed := owed } with
        log := w.log ++ [Event.answered tag r] }
    else none

def runCut (w : World) (s n : ℕ) : World :=
  w.setSocket s { w.pool.sockets s with wire := (w.pool.sockets s).wire.take n, ended := true }

/-- One step, or `none` where the action is not possible. -/
def step (w : World) : Action → Option World
  | .exec args ctx => some (w.spawn (.exec (.begin args ctx) .start))
  | .close => some (w.spawn (.close .flag))
  | .run p inp => w.runProc p inp
  | .panic p => w.runPanic p
  | .tick elapsed => some { w with now := w.now + elapsed }
  | .cancel p => w.endCtx p .canceled
  | .expire p => w.endCtx p .deadlineExceeded
  | .startWatch p => w.runStartWatch p
  | .watchClose s => w.runWatchClose s
  | .answer s r => w.runAnswer s r
  | .cut s n => some (w.runCut s n)

end World

def new (cfg : Config) : Except ConfigError World := cfg.applyDefaults.map World.init

end MiddlewareUtils.SimpleRedis
