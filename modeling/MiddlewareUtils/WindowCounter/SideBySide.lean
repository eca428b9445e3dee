import MiddlewareUtils.WindowCounter.Exact
import MiddlewareUtils.WindowCounter.Moves

/-!
# A buffered and an exact limiter, driven side by side

Exact mode has no state of its own: a Take is INCR, EXPIRE on the first hit
and a GET, a Peek is two GETs. For a sole client nothing comes between these
commands, so here they are functions of what Redis holds (`takeExact`,
`peekExact`).

The pair has a buffered limiter over one Redis and an exact one over
another. Whenever a Take or a Peek begins on the buffered side the exact
side makes the same call at the same reading, and its answer is kept under
the number of the buffered call. Both Redises drop keys on their own: the
buffered one when the expiry it was given has come, the exact one at any
time from two windows after the start of the key's window on.

`Sequential` is what the two are compared under. One call at a time, ticks
and Sleep included; one opaque key and one window length; Redis answers;
readings do not go back, and none leaves the window of a Take or Peek that
has not made its estimate yet, so that a call belongs to one window.
-/

namespace MiddlewareUtils.WindowCounter

open Lib Function

def estimate (current previous : ℤ) (sl : SlidingWindow) (limit : ℤ) : Answer :=
  let estimated := (current : ℚ) + previous * sl.weight
  ⟨decide (estimated ≤ limit), estimated⟩

def takeExact (r : Store) (redisNow : ℤ) (sl : SlidingWindow) (limit : ℤ) : Store × Answer :=
  let incremented := r.incrBy sl.currentKey 1
  let current := incremented.get sl.currentKey
  let stored :=
    if current = 1 then incremented.expireAt sl.currentKey (redisNow + sl.ttlSec)
    else incremented
  (stored, estimate current (stored.get sl.previousKey) sl limit)

def peekExact (r : Store) (sl : SlidingWindow) (limit : ℤ) : Answer :=
  estimate (r.get sl.currentKey) (r.get sl.previousKey) sl limit

/-- A Peek whose two GETs find two states of Redis. -/
def peekAt (key : String) (window limit : ℤ) (now : ℕ) (current previous : Store) :
    Except WindowError Answer :=
  (slidingAt key window now).map fun sl =>
    estimate (current.get sl.currentKey) (previous.get sl.previousKey) sl limit

/-! ## Calls one after another

A sole client of an exact limiter. Redis' clock moves between the calls, and
when it does the keys whose expiry has come are gone. -/

/-- What Redis holds, and its clock. -/
structure Redis where
  store : Store
  now : ℤ

/-- One call on the limiter, or a second on Redis' clock. -/
inductive Move where
  | take (key : String) (limit window : ℤ) (now : ℕ)
  | peek (key : String) (limit window : ℤ) (now : ℕ)
  | tick
  deriving DecidableEq, Repr

namespace Redis

def tick (r : Redis) : Redis where
  store k := (r.store k).filter fun e => e.expireAt.all (r.now + 1 < ·)
  now := r.now + 1

def take (r : Redis) (key : String) (limit window : ℤ) (now : ℕ) :
    Redis × Except WindowError Answer :=
  match slidingAt key window now with
  | .error err => (r, .error err)
  | .ok sl =>
    let (store, answer) := takeExact r.store r.now sl limit
    ({ r with store := store }, .ok answer)

def peek (r : Redis) (key : String) (limit window : ℤ) (now : ℕ) : Except WindowError Answer :=
  (slidingAt key window now).map fun sl => peekExact r.store sl limit

def move (r : Redis) : Move → Redis × Option (Except WindowError Answer)
  | .take key limit window now =>
    ((r.take key limit window now).1, some (r.take key limit window now).2)
  | .peek key limit window now => (r, some (r.peek key limit window now))
  | .tick => (r.tick, none)

def after (r : Redis) (moves : List Move) : Redis := moves.foldl (fun r m => (r.move m).1) r

end Redis

/-! ## The commands of a sole client -/

section ExactMachine

variable {quota : String → Quota} {s : ExactState} {p now : ℕ} {sl : SlidingWindow} {current : ℤ}

theorem getPrevious_answered (quota : String → Quota)
    (h : s.takes p = some ⟨now, sl, .getPrevious current⟩) :
    ∃ s', exactStep quota s (.getPrevious p .ok) = some s' ∧ s'.redis = s.redis ∧
      s'.takes p = some ⟨now, sl, .returned current (s.redis.get sl.previousKey)⟩ := by
  have hredis : (s.noteRead sl.previousKey).redis = s.redis := by
    unfold ExactState.noteRead
    split <;> rfl
  refine ⟨s.stepGetPrevious p ⟨now, sl, .getPrevious current⟩ current .ok, ?_, hredis,
    update_self ..⟩
  simp only [exactStep, h]

theorem expire_answered (quota : String → Quota)
    (h : s.takes p = some ⟨now, sl, .expire current⟩) :
    ∃ s', exactStep quota s (.expire p .ok) = some s' ∧
      s'.redis = s.redis.expireAt sl.currentKey (s.redisNow + sl.ttlSec) ∧
      s'.takes p = some ⟨now, sl, .getPrevious current⟩ := by
  refine ⟨s.stepExpire p ⟨now, sl, .expire current⟩ current .ok, ?_, rfl,
    update_self ..⟩
  simp only [exactStep, h]

/-- With no one else at Redis and every command answered, the machine of
exact mode runs a Take to what `takeExact` computes. -/
theorem takeExact_runs {key : String} (hsl : slidingAt key (quota key).window now = .ok sl) :
    ∃ acts s' t current previous, run (exactStep quota) s acts = some s' ∧
      s'.takes s.next = some t ∧ t.pc = .returned current previous ∧
      takeExact s.redis s.redisNow sl (quota key).limit =
        (s'.redis, ⟨t.allowed (quota key).limit, t.estimated current previous⟩) := by
  let called : ExactState :=
    { s with
      takes := update s.takes s.next (some ⟨now, sl, .incr⟩)
      next := s.next + 1 }
  have hcall : exactStep quota s (.call key now) = some called := by
    simp only [exactStep, hsl, called]
  have htake : called.takes s.next = some ⟨now, sl, .incr⟩ := update_self ..
  let counted := called.stepIncr s.next ⟨now, sl, .incr⟩ .ok
  have hincr : exactStep quota called (.incr s.next .ok) = some counted := by
    simp only [exactStep, htake, if_true, counted]
  have hcounted : counted.takes s.next = some ⟨now, sl, _⟩ := update_self ..
  -- The EXPIRE is sent only by the Take that sees the counter at one.
  by_cases hone : (s.redis.incrBy sl.currentKey 1).get sl.currentKey = 1
  · have hpc : counted.takes s.next = some ⟨now, sl, .expire 1⟩ := by
      rw [hcounted]
      simp only [ExactState.applyIncr, called, hone, if_true]
    obtain ⟨s₁, hexpire, hredis₁, htakes₁⟩ := expire_answered quota hpc
    obtain ⟨s₂, hget, hredis₂, htakes₂⟩ := getPrevious_answered quota htakes₁
    refine ⟨[.call key now, .incr s.next .ok, .expire s.next .ok, .getPrevious s.next .ok],
      s₂, _, _, _, ?_, htakes₂, rfl, ?_⟩
    · simp only [run, hcall, hincr, hexpire, hget, Option.bind_some]
    · rw [hredis₂, hredis₁]
      simp only [takeExact, hone, if_true]
      rfl
  · have hpc : counted.takes s.next = some ⟨now, sl, .getPrevious
        ((s.redis.incrBy sl.currentKey 1).get sl.currentKey)⟩ := by
      rw [hcounted]
      simp only [ExactState.applyIncr, called, hone, if_false]
    obtain ⟨s₂, hget, hredis₂, htakes₂⟩ := getPrevious_answered quota hpc
    refine ⟨[.call key now, .incr s.next .ok, .getPrevious s.next .ok],
      s₂, _, _, _, ?_, htakes₂, rfl, ?_⟩
    · simp only [run, hcall, hincr, hget, Option.bind_some]
    · rw [hredis₂]
      simp only [takeExact, hone, if_false]
      rfl

end ExactMachine

/-! ## The pair -/

/-- The buffered limiter, the store of the exact one and its answers. -/
structure Pair where
  buffered : World 1
  exact : Store
  answers : ℕ → Option Answer

/-- A step of the buffered side, followed by the exact one. -/
inductive PairAction where
  | act (a : Action 1)
  /-- The Redis of the exact limiter drops a key. -/
  | lose (k : WindowKey) (now : ℕ)

namespace Pair

def init (limiter : Limiter) : Pair where
  buffered := World.init Store.empty fun _ => limiter
  exact := Store.empty
  answers := fun _ => none

/-- The exact side makes a call. -/
def call (s : Pair) (key : String) (window : ℤ) (now : ℕ)
    (exactly : SlidingWindow → Store × Answer) : Pair :=
  match slidingAt key window now with
  | .error _ => s
  | .ok sl =>
    { s with
      exact := (exactly sl).1
      answers := update s.answers s.buffered.next (some (exactly sl).2) }

def follow (s : Pair) : Action 1 → Pair
  | .take _ key limit window now =>
    s.call key window now fun sl => takeExact s.exact (unix now) sl limit
  | .peek _ key limit window now =>
    s.call key window now fun sl => (s.exact, peekExact s.exact sl limit)
  | _ => s

def step (windowSec : ℤ) (s : Pair) : PairAction → Option Pair
  | .act a => (s.buffered.step a).map fun w => { s.follow a with buffered := w }
  | .lose k now =>
    if k.windowStart + 2 * windowSec ≤ unix now then
      some { s with exact := s.exact.lose k, buffered := s.buffered.reading now }
    else none

end Pair

/-! ## One call at a time -/

namespace Todo

def peek : Todo → Option (SlidingWindow × ℤ)
  | peekEnter sl limit | peekApply sl limit _ | peekPrev sl limit _
  | peekPrevApply sl limit _ _ => some (sl, limit)
  | _ => none

end Todo

namespace Pc

def peek : Pc → Option (SlidingWindow × ℤ)
  | lock t | held t => t.peek
  | getting (.peekCurrent sl limit) | getting (.peekPrevious sl limit _) => some (sl, limit)
  | _ => none

def returned : Pc → Bool
  | answered .. | failed _ | finished => true
  | _ => false

end Pc

namespace Pair

def Idle (s : Pair) : Prop :=
  ∀ p < s.buffered.next, ∀ x ∈ s.buffered.procs p, x.pc.returned = true

/-- The clock does not go back, and does not leave the window of a Take or
Peek that has yet to make its estimate. -/
def InTime (s : Pair) (now : ℕ) : Prop :=
  s.buffered.clock ≤ unix now ∧
    ∀ p < s.buffered.next, ∀ x ∈ s.buffered.procs p,
      (∀ y ∈ x.pc.take, unix now < y.1.previousKey.windowStart + y.1.ttlSec) ∧
        ∀ y ∈ x.pc.peek, unix now < y.1.previousKey.windowStart + y.1.ttlSec

/-- What may begin, and when. -/
def Begin (key : String) (window : ℤ) (s : Pair) : Action 1 → Prop
  | .take _ key' _ window' _ | .peek _ key' _ window' _ => s.Idle ∧ key' = key ∧ window' = window
  | .sleep _ | .wake _ | .fire .. => s.Idle
  | .close _ => False
  | .run .. | .get .. | .eval .. | .expire .. => True

/-- One call at a time, on one key, by a clock that goes forward. -/
def Sequential (key : String) (window : ℤ) (s : Pair) : PairAction → Prop
  | .act a => s.Begin key window a ∧ a.redisUp = true ∧ ∀ now ∈ a.reading, s.InTime now
  | .lose _ now => s.InTime now

instance (s : Pair) : Decidable s.Idle :=
  inferInstanceAs (Decidable (∀ p < s.buffered.next, ∀ x ∈ s.buffered.procs p,
    x.pc.returned = true))

instance (s : Pair) (now : ℕ) : Decidable (s.InTime now) :=
  inferInstanceAs (Decidable (s.buffered.clock ≤ unix now ∧
    ∀ p < s.buffered.next, ∀ x ∈ s.buffered.procs p,
      (∀ y ∈ x.pc.take, unix now < y.1.previousKey.windowStart + y.1.ttlSec) ∧
        ∀ y ∈ x.pc.peek, unix now < y.1.previousKey.windowStart + y.1.ttlSec))

instance (key : String) (window : ℤ) (s : Pair) : (a : Action 1) → Decidable (s.Begin key window a)
  | .take _ key' _ window' _ | .peek _ key' _ window' _ =>
    inferInstanceAs (Decidable (s.Idle ∧ key' = key ∧ window' = window))
  | .sleep _ | .wake _ | .fire .. => inferInstanceAs (Decidable s.Idle)
  | .close _ => isFalse id
  | .run .. | .get .. | .eval .. | .expire .. => isTrue trivial

instance (key : String) (window : ℤ) (s : Pair) :
    (x : PairAction) → Decidable (s.Sequential key window x)
  | .act a => inferInstanceAs (Decidable (s.Begin key window a ∧ a.redisUp = true ∧
      ∀ now ∈ a.reading, s.InTime now))
  | .lose _ now => inferInstanceAs (Decidable (s.InTime now))

end Pair

end MiddlewareUtils.WindowCounter
