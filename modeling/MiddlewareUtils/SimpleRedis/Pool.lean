import Mathlib.Logic.Function.Basic
import MiddlewareUtils.SimpleRedis.Resp

/-!
# The connection pool

The settings `New` freezes and the state of one client: the unused sockets
in `idleConns`, the closed flag, the tokens in `inUseTurns`, and every
socket the client ever opened. A socket is what both ends know of it.
`buffer` is what the client's reader holds and has not parsed. `wire` is
what the peer has sent and the reader has not seen, wherever it is on the
way. `owed` are the commands the peer has received and not answered, the
oldest first.

Each function that holds `idleConnsMu`, and each use of the token channel,
is one function on the pool.
-/

namespace MiddlewareUtils.SimpleRedis

/-! ## Config -/

/-- Durations are nanoseconds. -/
structure Config where
  pass : Bytes
  database : Bytes
  poolSize : ℤ
  maxIdleConns : ℤ
  poolTimeout : ℤ
  idleTimeout : ℤ
  dialTimeout : ℤ
  commandTimeout : ℤ
  maxRetries : ℤ
  minRetryBackoff : ℤ
  maxRetryBackoff : ℤ
  deriving DecidableEq, Repr

def defaultMaxIdleConns : ℤ := 8
def defaultPoolSize : ℤ := 8
def defaultIdleTimeout : ℤ := 30000000000
def defaultDialTimeout : ℤ := 200000000
def defaultCommandTimeout : ℤ := 900000000
def defaultPoolTimeout : ℤ := 200000000
def defaultMaxRetries : ℤ := 1

/-- Why `New` returns no client. -/
inductive ConfigError where
  | maxIdleConnsAbovePoolSize (maxIdleConns poolSize : ℤ)
  deriving DecidableEq, Repr

def ConfigError.text : ConfigError → String
  | maxIdleConnsAbovePoolSize maxIdleConns poolSize =>
    "simpleredis: MaxIdleConns must not exceed PoolSize (MaxIdleConns=" ++
      toString maxIdleConns ++ " PoolSize=" ++ toString poolSize ++ ")"

/-- The value, or the default when it is not positive. -/
def orDefault (value default : ℤ) : ℤ := if value ≤ 0 then default else value

namespace Config

def applyDefaults (cfg : Config) : Except ConfigError Config :=
  let poolSize := orDefault cfg.poolSize defaultPoolSize
  let filled : Config := { cfg with
    poolSize := poolSize
    maxIdleConns := if cfg.maxIdleConns ≤ 0 then min defaultMaxIdleConns poolSize
      else cfg.maxIdleConns
    poolTimeout := orDefault cfg.poolTimeout defaultPoolTimeout
    idleTimeout := orDefault cfg.idleTimeout defaultIdleTimeout
    dialTimeout := orDefault cfg.dialTimeout defaultDialTimeout
    commandTimeout := orDefault cfg.commandTimeout defaultCommandTimeout
    maxRetries := if cfg.maxRetries = 0 then defaultMaxRetries else cfg.maxRetries }
  -- An explicit trim above the live cap is refused; a defaulted one follows it.
  if 0 < cfg.maxIdleConns ∧ poolSize < cfg.maxIdleConns then
    .error (.maxIdleConnsAbovePoolSize cfg.maxIdleConns poolSize)
  else .ok filled

/-- `CommandTimeout()`. -/
def commandTimeoutOf (cfg : Config) : ℤ :=
  if 0 < cfg.commandTimeout then cfg.commandTimeout else defaultCommandTimeout

/-- `liveCap()` before the token channel exists, and its capacity after. -/
def liveCap (cfg : Config) : ℕ :=
  (if 0 < cfg.poolSize then cfg.poolSize else defaultPoolSize).toNat

end Config

/-! ## Sockets -/

/-- What an exchange on a socket is for. -/
inductive Verb where
  | auth
  | select
  | command
  deriving DecidableEq, Repr

/-- One write of one command: who sent it, in which attempt, and whether it is
the caller's command or a handshake in front of it. -/
structure Tag where
  caller : ℕ
  attempt : ℕ
  verb : Verb
  deriving DecidableEq, Repr

/-- The callback `watchConnClose` registers: `context.AfterFunc` starts it when
the context is done, and stopping it does nothing once it has started. -/
inductive Watch where
  | off
  | armed
  | started
  deriving DecidableEq, Repr

structure Socket where
  buffer : Bytes
  wire : Bytes
  owed : List Tag
  /-- The peer is gone: nothing follows `wire`. -/
  ended : Bool
  /-- The client has closed it. -/
  closed : Bool
  watch : Watch
  lastUsed : ℤ
  deriving DecidableEq, Repr

def Socket.fresh : Socket := ⟨[], [], [], false, false, .off, 0⟩

/-! ## The pool -/

structure Pool where
  idleConns : List ℕ
  closed : Bool
  inUseTurns : ℕ
  overFrees : ℕ
  sockets : ℕ → Socket
  nextSocket : ℕ

/-- What `takeIdleConn` returns. -/
inductive Taken where
  | closed
  | taken (reused : Option ℕ) (stale : List ℕ)
  deriving DecidableEq, Repr

namespace Pool

def new (cfg : Config) : Pool where
  idleConns := []
  closed := false
  inUseTurns := cfg.liveCap
  overFrees := 0
  sockets := fun _ => .fresh
  nextSocket := 0

def setSocket (sr : Pool) (s : ℕ) (sock : Socket) : Pool :=
  { sr with sockets := Function.update sr.sockets s sock }

def takeTurn (sr : Pool) : Pool := { sr with inUseTurns := sr.inUseTurns - 1 }

def freeInUseTurn (cfg : Config) (sr : Pool) : Pool :=
  if sr.inUseTurns < cfg.liveCap then { sr with inUseTurns := sr.inUseTurns + 1 }
  else { sr with overFrees := sr.overFrees + 1 }

/-- Still young enough to be reused. -/
def young (cfg : Config) (now : ℤ) (sr : Pool) (s : ℕ) : Bool :=
  now - (sr.sockets s).lastUsed < cfg.idleTimeout

def survivors (cfg : Config) (now : ℤ) (sr : Pool) : List ℕ :=
  sr.idleConns.filter (sr.young cfg now)

def stale (cfg : Config) (now : ℤ) (sr : Pool) : List ℕ :=
  sr.idleConns.filter fun s => !sr.young cfg now s

def takeIdleConn (cfg : Config) (now : ℤ) (sr : Pool) : Pool × Taken :=
  if sr.closed then (sr, .closed)
  else
    let survivors := sr.survivors cfg now
    -- LIFO: the newest survivor is reused.
    ({ sr with idleConns := survivors.dropLast }, .taken survivors.getLast? (sr.stale cfg now))

def parkIdleConn (cfg : Config) (sr : Pool) (s : ℕ) : Pool × Bool :=
  if sr.closed = true ∨ cfg.maxIdleConns ≤ sr.idleConns.length then (sr, false)
  else ({ sr with idleConns := sr.idleConns ++ [s] }, true)

/-- `lastUsed = time.Now()`. -/
def stamp (sr : Pool) (s : ℕ) (now : ℤ) : Pool :=
  sr.setSocket s { sr.sockets s with lastUsed := now }

def closeConn (sr : Pool) (s : ℕ) : Pool := sr.setSocket s { sr.sockets s with closed := true }

/-- TCP is up: a socket nobody has used. -/
def openConn (sr : Pool) : Pool :=
  { sr with
    sockets := Function.update sr.sockets sr.nextSocket .fresh
    nextSocket := sr.nextSocket + 1 }

def armWatch (sr : Pool) (s : ℕ) : Pool := sr.setSocket s { sr.sockets s with watch := .armed }

/-- The `stop` of `context.AfterFunc`. -/
def stopWatch (sr : Pool) (s : ℕ) : Pool :=
  if (sr.sockets s).watch = .armed then sr.setSocket s { sr.sockets s with watch := .off } else sr

/-- The command has reached the peer. -/
def deliver (sr : Pool) (s : ℕ) (tag : Tag) : Pool :=
  sr.setSocket s { sr.sockets s with owed := (sr.sockets s).owed ++ [tag] }

/-- A read from the socket returned the next `n` bytes. -/
def fill (sr : Pool) (s n : ℕ) : Pool :=
  sr.setSocket s { sr.sockets s with
    buffer := (sr.sockets s).buffer ++ (sr.sockets s).wire.take n
    wire := (sr.sockets s).wire.drop n }

def consume (sr : Pool) (s : ℕ) (rest : Bytes) : Pool :=
  sr.setSocket s { sr.sockets s with buffer := rest }

end Pool

end MiddlewareUtils.SimpleRedis
