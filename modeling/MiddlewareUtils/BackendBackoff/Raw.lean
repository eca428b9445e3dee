import MiddlewareUtils.Lib.Run
import MiddlewareUtils.Lib.SignedInt
import MiddlewareUtils.BackendBackoff.Gate

/-!
# The gate as Go stores it

`Gate` has a state that is one of three, an exponent that is a natural number
and a map that is never nil. Go promises none of that: `gateState` and `n`
are integers, each switch has a `default` that returns `errUnknown`, and
`Close` leaves a nil map, which can be read, ranged over and deleted from but
panics when it is written to. This is the same code over those types. A call
returns `none` when it panics.

Which key a `range` meets first is again the call's to choose, but it is a
key of the map (`Pick`): what `dropOne` deletes was there.

A duration is an `int64`, and the doubling of a cooldown is the one place
where that could show. It is written once more with every `wait *= 2` noted.

`Watch` runs the gate with one key watched. It keeps every answer, and the
reading at which the key was created or last became CLOSED.
-/

namespace MiddlewareUtils.BackendBackoff

open Lib

structure RawEntry where
  credit : ℚ
  n : ℤ
  state : ℤ
  openUntil : ℤ
  closedSince : ℤ
  probeUntil : ℤ
  probeOutstanding : Bool
  expireAt : ℤ
  deriving DecidableEq, Repr

inductive RawError where
  | errClosed
  | errUnknown
  deriving DecidableEq, Repr

def RawError.text : RawError → String
  | .errClosed => "backendbackoff: gate is closed"
  | .errUnknown => "backendbackoff: unknown key state"

def GateState.code : GateState → ℤ
  | .stateClosed => 0
  | .stateOpen => 1
  | .stateHalfOpen => 2

/-- What a call returns. -/
inductive Answer where
  | allow (allowed : Bool) (retryAfter : ℤ) (err : Option RawError)
  | report (err : Option RawError)
  | close
  deriving DecidableEq, Repr

def Answer.err : Answer → Option RawError
  | .allow _ _ err => err
  | .report err => err
  | .close => none

/-! ## Cooldowns in int64 -/

namespace Config

def doubledInt64 (cfg : Config) : ℕ → ℤ → Flagged ℤ
  | 0, wait => pure wait
  | n + 1, wait =>
    if wait > cfg.maxCooldown.tdiv 2 then pure cfg.maxCooldown
    else do
      let wait ← signed 64 (wait * 2)
      cfg.doubledInt64 n wait

def cooldownDurationInt64 (cfg : Config) (n : ℕ) (jitterSample : Sample) : Flagged ℤ := do
  let wait ← cfg.doubledInt64 n cfg.baseCooldown
  let wait := if wait > cfg.maxCooldown then cfg.maxCooldown else wait
  if cfg.jitter ≤ 0 then pure wait
  else
    let jittered := truncate (wait * (1 + cfg.jitter * (2 * jitterSample.1 - 1)))
    let jittered := if jittered < 0 then 0 else jittered
    pure (if jittered > cfg.maxCooldown then cfg.maxCooldown else jittered)

end Config

/-! ## One entry -/

namespace RawEntry

/-- The literal in `loadEntry`; the fields it leaves out are zero. -/
def fresh (budget : ℚ) (now : ℤ) : RawEntry :=
  ⟨budget, 0, GateState.stateClosed.code, 0, now, 0, false, 0⟩

def resetNIfClosedLongEnough (cfg : Config) (now : ℤ) (entry : RawEntry) : RawEntry :=
  if entry.closedSince = 0 then entry
  else if now < entry.closedSince + cfg.maxCooldown then entry
  else { entry with n := 0 }

def touch (cfg : Config) (now : ℤ) (entry : RawEntry) : RawEntry :=
  { entry with expireAt := now + cfg.ttl }

/-- `for i := 0; i < n; i++` makes no round when `n` is negative. -/
def cooldownDuration (cfg : Config) (n : ℤ) (jitterSample : Config.Sample) : ℤ :=
  cfg.cooldownDuration n.toNat jitterSample

/-- The switch of `Allow`. -/
def allow (cfg : Config) (now : ℤ) (entry : RawEntry) : RawEntry × Answer :=
  if entry.state = GateState.stateClosed.code then
    (entry.resetNIfClosedLongEnough cfg now, .allow true 0 none)
  else if entry.state = GateState.stateOpen.code then
    if now < entry.openUntil then (entry, .allow false (entry.openUntil - now) none)
    else
      ({ entry with
          state := GateState.stateHalfOpen.code
          probeOutstanding := true
          probeUntil := now + cfg.baseCooldown },
        .allow true 0 none)
  else if entry.state = GateState.stateHalfOpen.code then
    if entry.probeOutstanding = true ∧ now < entry.probeUntil then
      (entry, .allow false (entry.probeUntil - now) none)
    else
      ({ entry with probeOutstanding := true, probeUntil := now + cfg.baseCooldown },
        .allow true 0 none)
  else (entry, .allow false 0 (some .errUnknown))

/-- The switch of `Report`. -/
def report (cfg : Config) (budget : ℚ) (now : ℤ) (success : Bool) (jitterSample : Config.Sample)
    (entry : RawEntry) : RawEntry × Answer :=
  if entry.state = GateState.stateOpen.code then (entry, .report none)
  else if entry.state = GateState.stateHalfOpen.code then
    if entry.probeOutstanding = false then (entry, .report none)
    else
      let entry := { entry with probeOutstanding := false }
      if success then
        ({ entry with credit := budget, state := GateState.stateClosed.code, closedSince := now },
          .report none)
      else
        let entry := { entry with n := entry.n + 1, state := GateState.stateOpen.code }
        ({ entry with openUntil := now + cooldownDuration cfg entry.n jitterSample }, .report none)
  else if entry.state = GateState.stateClosed.code then
    if success then
      let credit := entry.credit + cfg.successCredit
      ({ entry with credit := if credit > budget then budget else credit }, .report none)
    else
      let entry := entry.resetNIfClosedLongEnough cfg now
      let entry := { entry with credit := entry.credit - 1 }
      if entry.credit ≤ 0 then
        ({ entry with
            state := GateState.stateOpen.code
            openUntil := now + cooldownDuration cfg entry.n jitterSample
            closedSince := 0 },
          .report none)
      else (entry, .report none)
  else (entry, .report (some .errUnknown))

end RawEntry

/-! ## The gate -/

abbrev RawEntries := AList fun _ : String => RawEntry

/-- The key a `range` over a map that is not empty meets first. -/
abbrev Pick := { first : List String → String // ∀ keys, keys ≠ [] → first keys ∈ keys }

/-- `keys` is `none` for the nil map. -/
structure RawGate where
  cfg : Config
  budget : ℚ
  closed : Bool
  keys : Option RawEntries

namespace RawGate

def new (cfg : AcceptedConfig) : RawGate := ⟨cfg.toConfig, cfg.tripFailures, false, some ∅⟩

def entries (g : RawGate) : RawEntries := g.keys.getD ∅

def live (now : ℤ) (entry : RawEntry) : Bool := decide (now < entry.expireAt)

def dropExpired (now : ℤ) (keys : RawEntries) : RawEntries := keep (live now) keys

def dropOne (first : Pick) (now : ℤ) (keys : RawEntries) : RawEntries :=
  let keys := dropExpired now keys
  if size keys < maxMemorySources then keys else keys.erase (first.1 keys.keys)

def loadEntry (g : RawGate) (first : Pick) (key : String) (now : ℤ) :
    Option (RawEntry × RawEntries) :=
  let found := g.entries.lookup key
  let keys := if found.any (!live now ·) then g.entries.erase key else g.entries
  match found.filter (live now) with
  | some entry => some (entry, keys)
  | none =>
    let keys := dropExpired now keys
    let keys := if maxMemorySources ≤ size keys then dropOne first now keys else keys
    let entry := RawEntry.fresh g.budget now
    -- `g.keys[key] = entry`
    if g.keys.isNone then none else some (entry, keys.insert key entry)

def allow (g : RawGate) (first : Pick) (key : String) (now : ℤ) : Option (RawGate × Answer) :=
  if g.closed then some (g, .allow false 0 (some .errClosed))
  else do
    let (entry, keys) ← g.loadEntry first key now
    let (entry, answer) := (entry.touch g.cfg now).allow g.cfg now
    return ({ g with keys := some (keys.insert key entry) }, answer)

def report (g : RawGate) (key : String) (success : Bool) (now : ℤ)
    (jitterSample : Config.Sample) : RawGate × Answer :=
  if g.closed then (g, .report (some .errClosed))
  else
    match g.entries.lookup key with
    | none => (g, .report none)
    | some entry =>
      let (entry, answer) :=
        (entry.touch g.cfg now).report g.cfg g.budget now success jitterSample
      -- The entry is a pointer; the map itself is not written.
      ({ g with keys := g.keys.map (·.insert key entry) }, answer)

def close (g : RawGate) : RawGate := { g with closed := true, keys := none }

end RawGate

inductive RawCall where
  | allow (key : String) (now : ℤ) (first : Pick)
  | report (key : String) (success : Bool) (now : ℤ) (jitterSample : Config.Sample)
  | close

namespace RawGate

def call (g : RawGate) : RawCall → Option (RawGate × Answer)
  | .allow key now first => g.allow first key now
  | .report key success now jitterSample => some (g.report key success now jitterSample)
  | .close => some (g.close, .close)

def missing (g : RawGate) (k : String) (now : ℤ) : Bool :=
  !g.closed && (g.entries.lookup k).all (!live now ·)

def isClosed (g : RawGate) (k : String) : Bool :=
  (g.entries.lookup k).any (decide <| ·.state = GateState.stateClosed.code)

end RawGate

/-! ## The watched key -/

/-- A gate with one key watched and all its answers. -/
structure Watch where
  gate : RawGate
  /-- The reading the watched key was created with, or last became CLOSED. -/
  since : ℤ
  answers : List Answer

namespace Watch

def init (cfg : AcceptedConfig) : Watch := ⟨.new cfg, 0, []⟩

def mark (k : String) (s : Watch) (g' : RawGate) : RawCall → ℤ
  | .allow key now _ => if key = k ∧ s.gate.missing k now then now else s.since
  | .report key _ now _ =>
    if key = k ∧ s.gate.isClosed k = false ∧ g'.isClosed k = true then now else s.since
  | .close => s.since

def step (k : String) (s : Watch) (c : RawCall) : Option Watch :=
  (s.gate.call c).map fun (g', answer) => ⟨g', s.mark k g' c, s.answers ++ [answer]⟩

end Watch

end MiddlewareUtils.BackendBackoff
