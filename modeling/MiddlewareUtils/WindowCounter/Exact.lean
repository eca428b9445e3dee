import MiddlewareUtils.Lib.Run
import MiddlewareUtils.WindowCounter.Sliding
import Mathlib.Data.Finset.Range
import Mathlib.Data.Finset.Card

/-!
# Exact mode: INCR, EXPIRE, GET

`takeExact` of `windowcounter/limiter.go`, as a machine of any number of
Takes in flight against one Redis. An exact-mode limiter keeps nothing
between calls, so which limiter or process a Take runs in does not show in
the state: it is the Takes that interleave, one Redis command at a time.

The three commands of a Take are three steps. Each of them may be answered,
may be applied with its reply lost and be sent again by the client (the
INCR then counts twice), or may fail for good, having been applied or not.
Redis keeps its own clock and may lose a window key once two window lengths
have passed since the window began, which is the lifetime `takeExact` asks
for when it sees the counter at one.

`hits` and `firstRead` are bookkeeping and nothing reads them but the
statements about them: how often a key was incremented, and how often it
had been when the first Take of the next window read it.
-/

namespace MiddlewareUtils.WindowCounter

open Function

/-- The limit and the window every call on an opaque key passes. -/
structure Quota where
  limit : ℤ
  window : ℤ

/-- `windowSec` of a quota. -/
def Quota.windowSec (q : Quota) : ℤ := q.window / second

/-- How one Redis command of a Take went. -/
inductive CallOutcome where
  | ok
  | lost
  | failed (applied : Bool)
  deriving DecidableEq, Repr

/-- Where a Take stands in `takeExact`: the command it sends next, or what
it returned. `returned` keeps the two counts its estimate was made of. -/
inductive ExactPc where
  | incr
  | expire (current : ℤ)
  | getPrevious (current : ℤ)
  | returned (current previous : ℤ)
  | failed
  deriving DecidableEq, Repr

/-- A Take in exact mode, with its one clock reading. -/
structure ExactTake where
  now : ℕ
  sliding : SlidingWindow
  pc : ExactPc
  deriving DecidableEq, Repr

namespace ExactTake

/-- The whole seconds between the window's start and the reading. -/
def offset (t : ExactTake) : ℤ := unix t.now - t.sliding.currentKey.windowStart

def estimated (t : ExactTake) (current previous : ℤ) : ℚ :=
  current + previous * t.sliding.weight

def allowed (t : ExactTake) (limit : ℤ) : Bool :=
  match t.pc with
  | .returned current previous => decide (t.estimated current previous ≤ limit)
  | _ => false

def current? (t : ExactTake) : Option ℤ :=
  match t.pc with
  | .incr | .failed => none
  | .expire c | .getPrevious c | .returned c _ => some c

end ExactTake

/-- One Redis and any number of Takes, with the hits made on each key. -/
structure ExactState where
  redis : Store
  redisNow : ℤ
  next : ℕ
  takes : ℕ → Option ExactTake
  hits : WindowKey → ℤ
  firstRead : WindowKey → Option ℤ

def ExactState.init : ExactState where
  redis := Store.empty
  redisNow := 0
  next := 0
  takes := fun _ => none
  hits := fun _ => 0
  firstRead := fun _ => none

inductive ExactAction where
  | call (key : String) (now : ℕ)
  | incr (p : ℕ) (out : CallOutcome)
  | expire (p : ℕ) (out : CallOutcome)
  | getPrevious (p : ℕ) (out : CallOutcome)
  | tick
  | lose (k : WindowKey)
  deriving DecidableEq

namespace ExactState

/-- The Take `p` moves to `pc`. -/
def goto (s : ExactState) (p : ℕ) (t : ExactTake) (pc : ExactPc) : ExactState :=
  { s with takes := update s.takes p (some { t with pc := pc }) }

/-- One INCR lands on `k`. -/
def applyIncr (s : ExactState) (k : WindowKey) : ExactState :=
  { s with redis := s.redis.incrBy k 1
           hits := update s.hits k (s.hits k + 1) }

/-- `redis.Expire`: relative to Redis' own clock. -/
def applyExpire (s : ExactState) (k : WindowKey) (ttlSec : ℤ) : ExactState :=
  { s with redis := s.redis.expireAt k (s.redisNow + ttlSec) }

/-- A Take of the next window reads `k`. -/
def noteRead (s : ExactState) (k : WindowKey) : ExactState :=
  match s.firstRead k with
  | some _ => s
  | none => { s with firstRead := update s.firstRead k (some (s.hits k)) }

/-- The INCR of a Take. -/
def stepIncr (s : ExactState) (p : ℕ) (t : ExactTake) : CallOutcome → ExactState
  | .ok =>
    let s' := s.applyIncr t.sliding.currentKey
    let current := s'.redis.get t.sliding.currentKey
    s'.goto p t (if current = 1 then .expire current else .getPrevious current)
  | .lost => s.applyIncr t.sliding.currentKey
  | .failed true => (s.applyIncr t.sliding.currentKey).goto p t .failed
  | .failed false => s.goto p t .failed

def stepExpire (s : ExactState) (p : ℕ) (t : ExactTake) (current : ℤ) :
    CallOutcome → ExactState
  | .ok => (s.applyExpire t.sliding.currentKey t.sliding.ttlSec).goto p t (.getPrevious current)
  | .lost => s.applyExpire t.sliding.currentKey t.sliding.ttlSec
  | .failed true =>
    (s.applyExpire t.sliding.currentKey t.sliding.ttlSec).goto p t .failed
  | .failed false => s.goto p t .failed

/-- The GET of the previous window; a reply that is lost changed nothing. -/
def stepGetPrevious (s : ExactState) (p : ℕ) (t : ExactTake) (current : ℤ) :
    CallOutcome → ExactState
  | .ok =>
    (s.noteRead t.sliding.previousKey).goto p t
      (.returned current (s.redis.get t.sliding.previousKey))
  | .lost => s.noteRead t.sliding.previousKey
  | .failed true => (s.noteRead t.sliding.previousKey).goto p t .failed
  | .failed false => s.goto p t .failed

end ExactState

/-- One step of any Take, of Redis' clock, or of Redis losing a key no
earlier than two windows after the window began. -/
def exactStep (quota : String → Quota) (s : ExactState) : ExactAction → Option ExactState
  | .call key now =>
    match slidingAt key (quota key).window now with
    | .error _ => some s
    | .ok sl =>
      some { s with
        takes := update s.takes s.next (some ⟨now, sl, .incr⟩)
        next := s.next + 1 }
  | .incr p out =>
    match s.takes p with
    | some t => if t.pc = .incr then some (s.stepIncr p t out) else none
    | none => none
  | .expire p out =>
    match s.takes p with
    | some t =>
      match t.pc with
      | .expire current => some (s.stepExpire p t current out)
      | _ => none
    | none => none
  | .getPrevious p out =>
    match s.takes p with
    | some t =>
      match t.pc with
      | .getPrevious current => some (s.stepGetPrevious p t current out)
      | _ => none
    | none => none
  | .tick => some { s with redisNow := s.redisNow + 1 }
  | .lose k =>
    if k.windowStart + 2 * (quota k.opaqueKey).windowSec ≤ s.redisNow then
      some { s with redis := s.redis.lose k }
    else none

/-- A Take of window `k` at an offset of at most `e` that returned
`allowed = true`. -/
def ExactTake.admittedBy (t : ExactTake) (limit : ℤ) (k : WindowKey) (e : ℚ) : Bool :=
  decide (t.sliding.currentKey = k) && decide ((t.offset : ℚ) ≤ e) && t.allowed limit

/-- How many Takes of window `k` at offset at most `e` were allowed. -/
def exactAdmitted (quota : String → Quota) (s : ExactState) (k : WindowKey) (e : ℚ) : ℕ :=
  ((Finset.range s.next).filter fun p =>
    (s.takes p).any (·.admittedBy (quota k.opaqueKey).limit k e)).card

/-- The hits applied to `k` before the first Take of the next window read
it: all of them, while none has. -/
def ExactState.hitsBeforeRead (s : ExactState) (k : WindowKey) : ℤ :=
  (s.firstRead k).getD (s.hits k)

/-- The window before `k`'s, for the window length `k`'s quota has. -/
def previousOf (quota : String → Quota) (k : WindowKey) : WindowKey :=
  ⟨k.opaqueKey, k.windowStart - (quota k.opaqueKey).windowSec⟩

/-- What the sliding estimate is to guarantee of window `k` in this state:
with `P` hits on the window before it, the admitted Takes up to offset `e`
are at most `limit - P * (1 - e / window)`. -/
def SlidingBound (quota : String → Quota) (s : ExactState) (k : WindowKey) (e : ℚ) : Prop :=
  (exactAdmitted quota s k e : ℚ) ≤
    max 0 ((quota k.opaqueKey).limit -
      s.hitsBeforeRead (previousOf quota k) *
        (1 - e / (quota k.opaqueKey).windowSec))

/-! ## Windows of any length

Nothing makes the callers of one opaque key pass one window. Here every
Take brings its own, and Redis may lose a key at any time. -/

/-- The same with a window length for each Take. -/
inductive HitAction where
  | take (key : String) (window : ℤ) (now : ℕ)
  | incr (p : ℕ) (out : CallOutcome)
  | expire (p : ℕ) (out : CallOutcome)
  | getPrevious (p : ℕ) (out : CallOutcome)
  | tick
  | lose (k : WindowKey)
  deriving DecidableEq

def hitStep (s : ExactState) : HitAction → Option ExactState
  | .take key window now => exactStep (fun _ => ⟨0, window⟩) s (.call key now)
  | .incr p out => exactStep (fun _ => ⟨0, 0⟩) s (.incr p out)
  | .expire p out => exactStep (fun _ => ⟨0, 0⟩) s (.expire p out)
  | .getPrevious p out => exactStep (fun _ => ⟨0, 0⟩) s (.getPrevious p out)
  | .tick => exactStep (fun _ => ⟨0, 0⟩) s .tick
  | .lose k => some { s with redis := s.redis.lose k }

/-- The Take has not returned. -/
def ExactTake.inFlight (t : ExactTake) : Bool :=
  match t.pc with
  | .returned _ _ | .failed => false
  | _ => true

/-- No Take is in flight. -/
def ExactState.idle (s : ExactState) : Bool :=
  (List.range s.next).all fun p => (s.takes p).all (!·.inFlight)

end MiddlewareUtils.WindowCounter
