import MiddlewareUtils.Lib.Run
import MiddlewareUtils.WindowCounter.Sliding

/-!
# Buffered mode: the limiter's lock-held pieces and its calls

`windowcounter/limiter.go` with a positive `syncRate`, as a machine of any
number of limiters over one Redis. The mutex is part of the state. A call
is a program counter: `lock` waits for `l.mu`, `held` owns it and does the
next piece, `getting` and `evaling` have released it for a Redis round
trip. Every piece makes at most one clock reading, so the interleavings of
pieces are the interleavings of the Go code with every reading its own.

A window's buffer is a pointer in Go, and that matters: a Take keeps the
pointer across the GET of the previous window while an eviction may take it
out of the map. So the map goes from keys to pointers, and the buffers live
in `states`, where an evicted one stays reachable through the pointer.

Map iteration has no order in Go. A flush takes the order it visits the
pending windows in from its input, and the outage probe takes the key it
happened to pick, each checked against what the map holds.

`clock`, `asked` and `log` are bookkeeping: the latest reading anyone made,
the expiry each key was asked to live until, and what happened to the
counts.
-/

namespace MiddlewareUtils.WindowCounter

open Function

/-- A `*windowState`. -/
abbrev Ptr := ℕ

/-- A Redis error, by its text. -/
abbrev RedisError := String

structure WindowState where
  key : WindowKey
  redisKnown : ℤ
  localDelta : ℤ
  expireAt : ℤ
  flushDelta : ℤ
  deriving DecidableEq, Repr

inductive TimerStatus where
  | armed
  | fired
  | stopped
  deriving DecidableEq, Repr

/-- `Limiter` in buffered mode; `mu` is who has the lock. -/
structure Limiter where
  syncRate : ℕ
  mu : Option ℕ
  windows : WindowKey → Option Ptr
  states : Ptr → WindowState
  nextPtr : Ptr
  closed : Bool
  stopping : Bool
  flushTimer : Option ℕ
  timers : ℕ → TimerStatus
  nextTimer : ℕ
  flushBusy : ℤ
  lastFlushErr : Option RedisError
  flushFailedAt : Option ℕ
  lastRedisOK : Option ℕ

/-- Kong Advanced's floor for a positive sync interval. -/
def minSyncRate : ℤ := 20000000

namespace Limiter

def startFlush (l : Limiter) : Limiter :=
  match l.flushTimer with
  | some _ => l
  | none =>
    { l with flushBusy := l.flushBusy + 1
             flushTimer := some l.nextTimer
             timers := update l.timers l.nextTimer .armed
             nextTimer := l.nextTimer + 1 }

/-- `New` on a client from `simpleredis.New`; `none` for a negative rate. -/
def new (syncRate : ℤ) : Option Limiter :=
  if syncRate < 0 then none
  else
    let rate := if 0 < syncRate ∧ syncRate < minSyncRate then minSyncRate else syncRate
    let l : Limiter :=
      { syncRate := rate.toNat
        mu := none
        windows := fun _ => none
        states := fun _ => ⟨⟨"", 0⟩, 0, 0, 0, 0⟩
        nextPtr := 0
        closed := false
        stopping := false
        flushTimer := none
        timers := fun _ => .stopped
        nextTimer := 0
        flushBusy := 0
        lastFlushErr := none
        flushFailedAt := none
        lastRedisOK := none }
    some (if 0 < rate then l.startFlush else l)

/-- `redisKnown + localDelta`. -/
def count (l : Limiter) (i : Ptr) : ℤ := (l.states i).redisKnown + (l.states i).localDelta

def setState (l : Limiter) (i : Ptr) (st : WindowState) : Limiter :=
  { l with states := update l.states i st }

/-- `if expireAt > state.expireAt { state.expireAt = expireAt }`. -/
def raise (l : Limiter) (i : Ptr) (expireAt : ℤ) : Limiter :=
  if expireAt > (l.states i).expireAt then
    l.setState i { l.states i with expireAt := expireAt }
  else l

/-- `l.lastRedisOK = l.now()`. -/
def contacted (l : Limiter) (now : ℕ) : Limiter := { l with lastRedisOK := some now }

/-- `applyGetLocked`: a new buffer on first sight, else the count is stored
only while no local hit is pending. -/
def applyGet (l : Limiter) (k : WindowKey) (known expireAt : ℤ) : Limiter × Ptr :=
  match l.windows k with
  | none =>
    ({ l with states := update l.states l.nextPtr ⟨k, known, 0, expireAt, 0⟩
              windows := update l.windows k (some l.nextPtr)
              nextPtr := l.nextPtr + 1 }, l.nextPtr)
  | some i =>
    let l' := l.raise i expireAt
    (if (l'.states i).localDelta = 0 then
      l'.setState i { l'.states i with redisKnown := known } else l', i)

/-- `currentState.localDelta++`. -/
def hit (l : Limiter) (i : Ptr) : Limiter :=
  l.setState i { l.states i with localDelta := (l.states i).localDelta + 1 }

/-- The buffers the map holds. -/
def mapped (l : Limiter) : List Ptr :=
  (List.range l.nextPtr).filter fun i => l.windows (l.states i).key = some i

/-- The buffers a flush snapshots: a local delta and no EVAL in flight. -/
def pending (l : Limiter) : List Ptr :=
  l.mapped.filter fun i => 0 < (l.states i).localDelta ∧ (l.states i).flushDelta = 0

/-- The first loop of `flushPendingLocked` marks every pending buffer. -/
def snapshot (l : Limiter) : Limiter :=
  { l with states := fun i =>
      if i ∈ l.pending then { l.states i with flushDelta := (l.states i).localDelta }
      else l.states i }

/-- The EVAL failed: the snapshot is given back. -/
def nack (l : Limiter) (k : WindowKey) : Limiter :=
  match l.windows k with
  | none => l
  | some i => l.setState i { l.states i with flushDelta := 0 }

/-- The EVAL returned `n`. -/
def ack (l : Limiter) (k : WindowKey) (n delta : ℤ) (now : ℕ) : Limiter :=
  match l.windows k with
  | none => l
  | some i =>
    { l.setState i { l.states i with
        redisKnown := n
        localDelta := (l.states i).localDelta - delta
        flushDelta := 0 } with
      lastRedisOK := some now
      lastFlushErr := none }

/-- The buffers the last loop of `flushPendingLocked` drops. -/
def evictable (l : Limiter) (nowUnix : ℤ) (i : Ptr) : Bool :=
  decide ((l.states i).localDelta = 0) && decide ((l.states i).flushDelta = 0) &&
    (decide ((l.states i).expireAt = 0) || decide (nowUnix ≥ (l.states i).expireAt))

def evict (l : Limiter) (nowUnix : ℤ) : Limiter :=
  { l with windows := fun k =>
      match l.windows k with
      | none => none
      | some i => if l.evictable nowUnix i then none else some i }

/-- `l.lastFlushErr = err` and the time of it. -/
def storeErr (l : Limiter) (err : Option RedisError) (now : ℕ) : Limiter :=
  match err with
  | none => l
  | some e => { l with lastFlushErr := some e, flushFailedAt := some now }

/-- `!l.lastRedisOK.IsZero() && l.now().Sub(l.lastRedisOK) < l.syncRate`. -/
def contactedWithinSyncRate (l : Limiter) (now : ℕ) : Bool :=
  match l.lastRedisOK with
  | none => false
  | some t => decide ((now : ℤ) - (t : ℤ) < (l.syncRate : ℤ))

/-- `flushBusy.Done()`. -/
def done (l : Limiter) : Limiter := { l with flushBusy := l.flushBusy - 1 }

/-- `flushTimer = time.AfterFunc(..)` of a tick that goes on. -/
def rearm (l : Limiter) : Limiter :=
  { l with flushTimer := some l.nextTimer
           timers := update l.timers l.nextTimer .armed
           nextTimer := l.nextTimer + 1 }

end Limiter

/-! ## Calls

`Todo` is a lock-held piece, `GetFor` says what a GET's reply is for, `Pc`
where a call stands. -/

/-- `allowed` and `estimated`, decided before the outage check. -/
structure Answer where
  allowed : Bool
  estimated : ℚ
  deriving DecidableEq, Repr

structure Job where
  key : WindowKey
  delta : ℤ
  expireAt : ℤ
  deriving DecidableEq, Repr

/-- Who runs a `flushPendingLocked`, and so where it returns to. -/
inductive FlushCaller where
  | probe (ans : Answer)
  | tick
  | sleep
  | close
  deriving DecidableEq, Repr

/-- The locals of a `flushPendingLocked` in progress. -/
structure Flush where
  caller : FlushCaller
  nowUnix : ℤ
  firstErr : Option RedisError
  deriving DecidableEq, Repr

abbrev Reply := Except RedisError ℤ

/-- The piece a call does next under the lock. -/
inductive Todo where
  | takeEnter (sl : SlidingWindow) (limit : ℤ)
  | takeApply (sl : SlidingWindow) (limit : ℤ) (reply : Reply)
  | takePrev (sl : SlidingWindow) (limit : ℤ) (cur : Ptr)
  | takePrevApply (sl : SlidingWindow) (limit : ℤ) (cur : Ptr) (reply : Reply)
  | takeHit (sl : SlidingWindow) (limit : ℤ) (cur : Ptr) (previous : ℤ)
  | peekEnter (sl : SlidingWindow) (limit : ℤ)
  | peekApply (sl : SlidingWindow) (limit : ℤ) (reply : Reply)
  | peekPrev (sl : SlidingWindow) (limit : ℤ) (current : ℤ)
  | peekPrevApply (sl : SlidingWindow) (limit : ℤ) (current : ℤ) (reply : Reply)
  | outage (ans : Answer)
  | flushStart (caller : FlushCaller)
  | flushNext (f : Flush) (jobs : List Job)
  | evalApply (f : Flush) (job : Job) (rest : List Job) (reply : Reply)
  | evict (f : Flush)
  | recheck (ans : Answer) (err : Option RedisError)
  | probeApply (ans : Answer) (reply : Reply)
  | wake
  | closeMark
  | rearm
  | stopMark
  | stopClear

inductive GetFor where
  | takeCurrent (sl : SlidingWindow) (limit : ℤ)
  | takePrevious (sl : SlidingWindow) (limit : ℤ) (cur : Ptr)
  | peekCurrent (sl : SlidingWindow) (limit : ℤ)
  | peekPrevious (sl : SlidingWindow) (limit : ℤ) (current : ℤ)
  | probe (ans : Answer) (k : WindowKey)

namespace GetFor

def key : GetFor → WindowKey
  | takeCurrent sl _ | peekCurrent sl _ => sl.currentKey
  | takePrevious sl _ _ | peekPrevious sl _ _ => sl.previousKey
  | probe _ k => k

/-- The piece that has the reply, once `l.mu` is back. -/
def todo (reply : Reply) : GetFor → Todo
  | takeCurrent sl limit => .takeApply sl limit reply
  | takePrevious sl limit cur => .takePrevApply sl limit cur reply
  | peekCurrent sl limit => .peekApply sl limit reply
  | peekPrevious sl limit current => .peekPrevApply sl limit current reply
  | probe ans _ => .probeApply ans reply

end GetFor

/-- Where a call stands: before the lock, in it, at Redis, or done. -/
inductive Pc where
  | lock (t : Todo)
  | held (t : Todo)
  | getting (g : GetFor)
  | evaling (f : Flush) (job : Job) (rest : List Job)
  /-- A tick that ends has `flushBusy.Done()` left. -/
  | tickDone
  | stopTimer (timer : ℕ)
  /-- `timer.Stop()` was in time, `flushBusy.Done()` is left. -/
  | stopDone
  | stopWait
  /-- A Take or Peek returned its answer, with the outage error if any. -/
  | answered (ans : Answer) (err : Option RedisError)
  /-- A Take or Peek returned an error and no answer. -/
  | failed (err : RedisError)
  /-- Sleep, Wake, Close or a tick returned. -/
  | finished

/-- What a lock-held piece leads to: the next piece, or `l.mu` released. -/
inductive Next where
  | hold (t : Todo)
  | release (pc : Pc)

namespace Next

def pc : Next → Pc
  | hold t => .held t
  | release pc => pc

def unlock : Next → Limiter → Limiter
  | hold _, l => l
  | release _, l => { l with mu := none }

end Next

/-- What a piece did to the counts of one window key. -/
inductive Event (n : ℕ) where
  | hit (i : Fin n) (k : WindowKey) (allowed : Bool)
  | applied (i : Fin n) (k : WindowKey) (delta : ℤ)
  | acked (i : Fin n) (k : WindowKey) (delta : ℤ)
  deriving DecidableEq, Repr

/-- The clock reading of a piece, and its two choices by map order. -/
structure Input where
  now : ℕ
  order : List Ptr
  probe : Option WindowKey
  deriving DecidableEq

def afterFlush (f : Flush) : Next :=
  match f.caller with
  | .probe ans => .hold (.recheck ans f.firstErr)
  | .tick => .release (.lock .rearm)
  | .sleep | .close => .release (.lock .stopMark)

def piece {n : ℕ} (me : Fin n) (l : Limiter) (inp : Input) :
    Todo → Option (Limiter × Next × List (Event n))
  | .takeEnter sl limit =>
    match l.windows sl.currentKey with
    | none => some (l, .release (.getting (.takeCurrent sl limit)), [])
    | some i =>
      let l' := l.raise i sl.expireAt
      if (l'.states i).localDelta ≠ 0 then some (l', .hold (.takePrev sl limit i), [])
      else some (l', .release (.getting (.takeCurrent sl limit)), [])
  | .takeApply _ _ (.error e) => some (l, .release (.failed e), [])
  | .takeApply sl limit (.ok known) =>
    let r := (l.contacted inp.now).applyGet sl.currentKey known sl.expireAt
    some (r.1, .hold (.takePrev sl limit r.2), [])
  | .takePrev sl limit cur =>
    match l.windows sl.previousKey with
    | none => some (l, .release (.getting (.takePrevious sl limit cur)), [])
    | some i => some (l, .hold (.takeHit sl limit cur (l.count i)), [])
  | .takePrevApply _ _ _ (.error e) => some (l, .release (.failed e), [])
  | .takePrevApply sl limit cur (.ok known) =>
    let r := (l.contacted inp.now).applyGet sl.previousKey known 0
    some (r.1, .hold (.takeHit sl limit cur (r.1.count r.2)), [])
  | .takeHit sl limit cur previous =>
    let l' := l.hit cur
    let estimated := (l'.count cur : ℚ) + previous * sl.weight
    let ans : Answer := ⟨decide (estimated ≤ limit), estimated⟩
    some (l', .hold (.outage ans), [.hit me sl.currentKey ans.allowed])
  | .peekEnter sl limit =>
    match l.windows sl.currentKey with
    | none => some (l, .release (.getting (.peekCurrent sl limit)), [])
    | some i =>
      let l' := l.raise i sl.expireAt
      some (l', .hold (.peekPrev sl limit (l'.count i)), [])
  | .peekApply _ _ (.error e) => some (l, .release (.failed e), [])
  | .peekApply sl limit (.ok known) =>
    let r := (l.contacted inp.now).applyGet sl.currentKey known sl.expireAt
    some (r.1, .hold (.peekPrev sl limit (r.1.count r.2)), [])
  | .peekPrev sl limit current =>
    match l.windows sl.previousKey with
    | none => some (l, .release (.getting (.peekPrevious sl limit current)), [])
    | some i =>
      let estimated := (current : ℚ) + l.count i * sl.weight
      some (l, .hold (.outage ⟨decide (estimated ≤ limit), estimated⟩), [])
  | .peekPrevApply _ _ _ (.error e) => some (l, .release (.failed e), [])
  | .peekPrevApply sl limit current (.ok known) =>
    let r := (l.contacted inp.now).applyGet sl.previousKey known 0
    let estimated := (current : ℚ) + r.1.count r.2 * sl.weight
    some (r.1, .hold (.outage ⟨decide (estimated ≤ limit), estimated⟩), [])
  | .outage ans =>
    match l.lastFlushErr with
    | some e => some (l, .release (.answered ans (some e)), [])
    | none =>
      if l.contactedWithinSyncRate inp.now then some (l, .release (.answered ans none), [])
      else some (l, .hold (.flushStart (.probe ans)), [])
  | .flushStart caller =>
    if inp.order.isPerm l.pending then
      let jobs := inp.order.map fun i =>
        (⟨(l.states i).key, (l.states i).localDelta, (l.states i).expireAt⟩ : Job)
      some (l.snapshot, .hold (.flushNext ⟨caller, unix inp.now, none⟩ jobs), [])
    else none
  | .flushNext f [] => some (l, .hold (.evict f), [])
  | .flushNext f (job :: rest) => some (l, .release (.evaling f job rest), [])
  | .evalApply f job rest (.error e) =>
    let f' := { f with firstErr := some (f.firstErr.getD e) }
    some (l.nack job.key, .hold (.flushNext f' rest), [])
  | .evalApply f job rest (.ok v) =>
    some (l.ack job.key v job.delta inp.now, .hold (.flushNext f rest),
      [.acked me job.key job.delta])
  | .evict f => some ((l.evict f.nowUnix).storeErr f.firstErr inp.now, afterFlush f, [])
  | .recheck ans (some e) => some (l, .release (.answered ans (some e)), [])
  | .recheck ans none =>
    match l.lastFlushErr with
    | some e => some (l, .release (.answered ans (some e)), [])
    | none =>
      if l.contactedWithinSyncRate inp.now then some (l, .release (.answered ans none), [])
      else match inp.probe with
        | none => if l.mapped = [] then some (l, .release (.answered ans none), []) else none
        | some k =>
          if (l.windows k).isSome then some (l, .release (.getting (.probe ans k)), [])
          else none
  | .probeApply ans (.error e) =>
    some (l.storeErr (some e) inp.now, .release (.answered ans (some e)), [])
  | .probeApply ans (.ok _) =>
    some (l.contacted inp.now, .release (.answered ans none), [])
  | .wake =>
    if l.closed ∨ l.syncRate = 0 ∨ l.flushTimer.isSome ∨ l.stopping then
      some (l, .release .finished, [])
    else some (l.startFlush, .release .finished, [])
  | .closeMark =>
    if l.closed then some (l, .release .finished, [])
    else some ({ l with closed := true }, .release (.lock (.flushStart .close)), [])
  | .rearm =>
    if l.closed ∨ l.stopping ∨ l.flushTimer.isNone then
      some (l, .release .tickDone, [])
    else some (l.rearm, .release .finished, [])
  | .stopMark =>
    match l.flushTimer with
    | none => some ({ l with stopping := false }, .release .finished, [])
    | some timer =>
      some ({ l with stopping := true, flushTimer := none }, .release (.stopTimer timer), [])
  | .stopClear => some ({ l with stopping := false }, .release .finished, [])

/-! ## The world of limiters -/

structure Proc (n : ℕ) where
  limiter : Fin n
  pc : Pc

/-- One Redis, `n` limiters and any number of calls and ticks. -/
structure World (n : ℕ) where
  redis : Store
  limiters : Fin n → Limiter
  next : ℕ
  procs : ℕ → Option (Proc n)
  clock : ℤ
  asked : WindowKey → List ℤ
  log : List (Event n)

/-- What moves: a call begins, a flush timer fires, Redis runs a command or
drops an expired key, or a call in progress does its next piece. -/
inductive Action (n : ℕ) where
  | take (i : Fin n) (key : String) (limit window : ℤ) (now : ℕ)
  | peek (i : Fin n) (key : String) (limit window : ℤ) (now : ℕ)
  | sleep (i : Fin n)
  | wake (i : Fin n)
  | close (i : Fin n)
  | fire (i : Fin n) (timer : ℕ)
  | run (p : ℕ) (inp : Input)
  | get (p : ℕ) (err : Option RedisError)
  | eval (p : ℕ) (err : Option RedisError)
  | expire (k : WindowKey) (now : ℕ)
  deriving DecidableEq

namespace World

variable {n : ℕ}

def setLimiter (w : World n) (i : Fin n) (l : Limiter) : World n :=
  { w with limiters := update w.limiters i l }

def setTimer (w : World n) (i : Fin n) (timer : ℕ) (status : TimerStatus) : World n :=
  w.setLimiter i { w.limiters i with
    timers := update (w.limiters i).timers timer status }

def setProc (w : World n) (p : ℕ) (i : Fin n) (pc : Pc) : World n :=
  { w with procs := update w.procs p (some ⟨i, pc⟩) }

def spawn (w : World n) (i : Fin n) (pc : Pc) : World n :=
  { w.setProc w.next i pc with next := w.next + 1 }

/-- Someone read the clock. -/
def reading (w : World n) (now : ℕ) : World n := { w with clock := max w.clock (unix now) }

/-- A call wants the current window's key to live until `sl.expireAt`. -/
def ask (w : World n) (sl : SlidingWindow) : World n :=
  { w with
    asked := update w.asked sl.currentKey (sl.expireAt :: w.asked sl.currentKey) }

/-- A Take or Peek begins: `slidingAt`, then the wait for `l.mu`. -/
def begin (w : World n) (i : Fin n) (key : String) (window : ℤ) (now : ℕ)
    (todo : SlidingWindow → Todo) : World n :=
  match slidingAt key window now with
  | .error _ => w.reading now
  | .ok sl => ((w.reading now).ask sl).spawn i (.lock (todo sl))

def runProc (w : World n) (p : ℕ) (inp : Input) : Option (World n) :=
  match w.procs p with
  | none => none
  | some ⟨i, .lock t⟩ =>
    if (w.limiters i).mu = none then
      some ((w.setLimiter i { w.limiters i with mu := some p }).setProc p i (.held t))
    else none
  | some ⟨i, .held t⟩ =>
    match piece i (w.limiters i) inp t with
    | none => none
    | some (l, next, evs) =>
      some ((({ w.reading inp.now with log := w.log ++ evs } : World n).setLimiter i
        (next.unlock l)).setProc p i next.pc)
  | some ⟨i, .tickDone⟩ =>
    some ((w.setLimiter i (w.limiters i).done).setProc p i .finished)
  | some ⟨i, .stopTimer timer⟩ =>
    if (w.limiters i).timers timer = .armed then
      some ((w.setTimer i timer .stopped).setProc p i .stopDone)
    else some (w.setProc p i .stopWait)
  | some ⟨i, .stopDone⟩ =>
    some ((w.setLimiter i (w.limiters i).done).setProc p i .stopWait)
  | some ⟨i, .stopWait⟩ =>
    if (w.limiters i).flushBusy = 0 then some (w.setProc p i (.lock .stopClear)) else none
  | some _ => none

/-- Redis answers the GET of process `p`. -/
def runGet (w : World n) (p : ℕ) (err : Option RedisError) : Option (World n) :=
  match w.procs p with
  | some ⟨i, .getting g⟩ =>
    let reply : Reply := match err with
      | none => .ok (w.redis.get g.key)
      | some e => .error e
    some (w.setProc p i (.lock (g.todo reply)))
  | _ => none

/-- Redis answers the EVAL of process `p`: applied once and acknowledged,
or failed and not applied. -/
def runEval (w : World n) (p : ℕ) (err : Option RedisError) : Option (World n) :=
  match w.procs p with
  | some ⟨i, .evaling f job rest⟩ =>
    match err with
    | some e => some (w.setProc p i (.lock (.evalApply f job rest (.error e))))
    | none =>
      let r := w.redis.flush job.key job.delta job.expireAt
      some (({ w with
        redis := r
        log := w.log ++ [Event.applied i job.key job.delta] } : World n).setProc p i
          (.lock (.evalApply f job rest (.ok (r.get job.key)))))
  | _ => none

/-- Redis drops a key whose expiry its own clock has reached. -/
def runExpire (w : World n) (k : WindowKey) (now : ℕ) : Option (World n) :=
  match (w.redis k).bind (·.expireAt) with
  | some t => if t ≤ unix now then some { w.reading now with redis := w.redis.lose k } else none
  | none => none

def runFire (w : World n) (i : Fin n) (timer : ℕ) : Option (World n) :=
  if (w.limiters i).timers timer = .armed then
    some ((w.setTimer i timer .fired).spawn i (.lock (.flushStart .tick)))
  else none

/-- One step, or `none` where the action is not possible. -/
def step (w : World n) : Action n → Option (World n)
  | .take i key limit window now => some (w.begin i key window now (.takeEnter · limit))
  | .peek i key limit window now => some (w.begin i key window now (.peekEnter · limit))
  | .sleep i => some (w.spawn i (.lock (.flushStart .sleep)))
  | .wake i => some (w.spawn i (.lock .wake))
  | .close i => some (w.spawn i (.lock .closeMark))
  | .fire i timer => w.runFire i timer
  | .run p inp => w.runProc p inp
  | .get p err => w.runGet p err
  | .eval p err => w.runEval p err
  | .expire k now => w.runExpire k now

end World

end MiddlewareUtils.WindowCounter
