import MiddlewareUtils.WindowCounter.Ledger

/-!
# What one step of the buffered machine can do

`piece` and `World.step` are functions, and every statement about runs
would have to take their branches apart again. This file does it once: a
lock-held piece is one of the `PieceMove`s and a step is one of the
`Moved`s, guards included. The proofs that follow case on those.

A step moves at most one process and rewrites at most its limiter. What it
may not disturb in the limiter is the mutex: a piece leaves `l.mu` to the
`unlock` after it, so whoever holds the lock is the one process at a `held`
program counter.
-/

namespace MiddlewareUtils.WindowCounter

open Lib Function

/-- Redis answers: no GET and no EVAL fails. -/
def Action.redisUp {n : ℕ} : Action n → Bool
  | .get _ err | .eval _ err => err.isNone
  | _ => true

/-- The clock reading an action makes. -/
def Action.reading {n : ℕ} : Action n → Option ℕ
  | .take _ _ _ _ now | .peek _ _ _ _ now | .expire _ now => some now
  | .run _ inp => some inp.now
  | _ => none

/-- The branches of `piece`. -/
inductive PieceMove {n : ℕ} (me : Fin n) (l : Limiter) (inp : Input) :
    Todo → Limiter → Next → List (Event n) → Prop where
  | takeMiss {sl limit} (hmap : l.windows sl.currentKey = none) :
      PieceMove me l inp (.takeEnter sl limit) l
        (.release (.getting (.takeCurrent sl limit))) []
  | takeRefresh {sl limit j} (hmap : l.windows sl.currentKey = some j)
      (hzero : ((l.raise j sl.expireAt).states j).localDelta = 0) :
      PieceMove me l inp (.takeEnter sl limit) (l.raise j sl.expireAt)
        (.release (.getting (.takeCurrent sl limit))) []
  | takeBuffered {sl limit j} (hmap : l.windows sl.currentKey = some j)
      (hdelta : ((l.raise j sl.expireAt).states j).localDelta ≠ 0) :
      PieceMove me l inp (.takeEnter sl limit) (l.raise j sl.expireAt)
        (.hold (.takePrev sl limit j)) []
  | takeFailed {sl limit e} :
      PieceMove me l inp (.takeApply sl limit (.error e)) l (.release (.failed e)) []
  | takeSeed {sl limit known} :
      PieceMove me l inp (.takeApply sl limit (.ok known))
        ((l.contacted inp.now).applyGet sl.currentKey known sl.expireAt).1
        (.hold (.takePrev sl limit
          ((l.contacted inp.now).applyGet sl.currentKey known sl.expireAt).2)) []
  | takePrevMiss {sl limit cur} (hmap : l.windows sl.previousKey = none) :
      PieceMove me l inp (.takePrev sl limit cur) l
        (.release (.getting (.takePrevious sl limit cur))) []
  | takePrevBuffered {sl limit cur j} (hmap : l.windows sl.previousKey = some j) :
      PieceMove me l inp (.takePrev sl limit cur) l
        (.hold (.takeHit sl limit cur (l.count j))) []
  | takePrevFailed {sl limit cur e} :
      PieceMove me l inp (.takePrevApply sl limit cur (.error e)) l (.release (.failed e)) []
  | takePrevSeed {sl limit cur known} :
      PieceMove me l inp (.takePrevApply sl limit cur (.ok known))
        ((l.contacted inp.now).applyGet sl.previousKey known 0).1
        (.hold (.takeHit sl limit cur
          (((l.contacted inp.now).applyGet sl.previousKey known 0).1.count
            ((l.contacted inp.now).applyGet sl.previousKey known 0).2))) []
  | takeHit {sl cur} {limit previous : ℤ} {ans : Answer}
      (hans : ans = ⟨decide (((l.hit cur).count cur : ℚ) + previous * sl.weight ≤ limit),
        ((l.hit cur).count cur : ℚ) + previous * sl.weight⟩) :
      PieceMove me l inp (.takeHit sl limit cur previous) (l.hit cur) (.hold (.outage ans))
        [.hit me sl.currentKey ans.allowed]
  | peekMiss {sl limit} (hmap : l.windows sl.currentKey = none) :
      PieceMove me l inp (.peekEnter sl limit) l
        (.release (.getting (.peekCurrent sl limit))) []
  | peekBuffered {sl limit j} (hmap : l.windows sl.currentKey = some j) :
      PieceMove me l inp (.peekEnter sl limit) (l.raise j sl.expireAt)
        (.hold (.peekPrev sl limit ((l.raise j sl.expireAt).count j))) []
  | peekFailed {sl limit e} :
      PieceMove me l inp (.peekApply sl limit (.error e)) l (.release (.failed e)) []
  | peekSeed {sl limit known} :
      PieceMove me l inp (.peekApply sl limit (.ok known))
        ((l.contacted inp.now).applyGet sl.currentKey known sl.expireAt).1
        (.hold (.peekPrev sl limit
          (((l.contacted inp.now).applyGet sl.currentKey known sl.expireAt).1.count
            ((l.contacted inp.now).applyGet sl.currentKey known sl.expireAt).2))) []
  | peekPrevMiss {sl limit current} (hmap : l.windows sl.previousKey = none) :
      PieceMove me l inp (.peekPrev sl limit current) l
        (.release (.getting (.peekPrevious sl limit current))) []
  | peekPrevBuffered {sl j} {limit current : ℤ} {ans : Answer}
      (hmap : l.windows sl.previousKey = some j)
      (hans : ans = ⟨decide ((current : ℚ) + l.count j * sl.weight ≤ limit),
        (current : ℚ) + l.count j * sl.weight⟩) :
      PieceMove me l inp (.peekPrev sl limit current) l (.hold (.outage ans)) []
  | peekPrevFailed {sl limit current e} :
      PieceMove me l inp (.peekPrevApply sl limit current (.error e)) l
        (.release (.failed e)) []
  | peekPrevSeed {sl known r} {limit current : ℤ} {ans : Answer}
      (hr : r = (l.contacted inp.now).applyGet sl.previousKey known 0)
      (hans : ans = ⟨decide ((current : ℚ) + r.1.count r.2 * sl.weight ≤ limit),
        (current : ℚ) + r.1.count r.2 * sl.weight⟩) :
      PieceMove me l inp (.peekPrevApply sl limit current (.ok known)) r.1
        (.hold (.outage ans)) []
  | outageKept {ans e} (herr : l.lastFlushErr = some e) :
      PieceMove me l inp (.outage ans) l (.release (.answered ans (some e))) []
  | outageRecent {ans} (herr : l.lastFlushErr = none)
      (hok : l.contactedWithinSyncRate inp.now = true) :
      PieceMove me l inp (.outage ans) l (.release (.answered ans none)) []
  | outageProbe {ans} (herr : l.lastFlushErr = none)
      (hok : l.contactedWithinSyncRate inp.now = false) :
      PieceMove me l inp (.outage ans) l (.hold (.flushStart (.probe ans))) []
  | flushStart {caller} (horder : inp.order.isPerm l.pending = true) :
      PieceMove me l inp (.flushStart caller) l.snapshot
        (.hold (.flushNext ⟨caller, unix inp.now, none⟩ (inp.order.map fun i =>
          ⟨(l.states i).key, (l.states i).localDelta, (l.states i).expireAt⟩))) []
  | flushLast {f} : PieceMove me l inp (.flushNext f []) l (.hold (.evict f)) []
  | flushSend {f job rest} :
      PieceMove me l inp (.flushNext f (job :: rest)) l (.release (.evaling f job rest)) []
  | evalFailed {f job rest e} :
      PieceMove me l inp (.evalApply f job rest (.error e)) (l.nack job.key)
        (.hold (.flushNext { f with firstErr := some (f.firstErr.getD e) } rest)) []
  | evalAcked {f job rest v} :
      PieceMove me l inp (.evalApply f job rest (.ok v)) (l.ack job.key v job.delta inp.now)
        (.hold (.flushNext f rest)) [.acked me job.key job.delta]
  | evict {f} :
      PieceMove me l inp (.evict f) ((l.evict f.nowUnix).storeErr f.firstErr inp.now)
        (afterFlush f) []
  | recheckFailed {ans e} :
      PieceMove me l inp (.recheck ans (some e)) l (.release (.answered ans (some e))) []
  | recheckKept {ans e} (herr : l.lastFlushErr = some e) :
      PieceMove me l inp (.recheck ans none) l (.release (.answered ans (some e))) []
  | recheckRecent {ans} (herr : l.lastFlushErr = none)
      (hok : l.contactedWithinSyncRate inp.now = true) :
      PieceMove me l inp (.recheck ans none) l (.release (.answered ans none)) []
  | recheckEmpty {ans} (herr : l.lastFlushErr = none)
      (hok : l.contactedWithinSyncRate inp.now = false) (hempty : l.mapped = []) :
      PieceMove me l inp (.recheck ans none) l (.release (.answered ans none)) []
  | recheckProbe {ans k} (herr : l.lastFlushErr = none)
      (hok : l.contactedWithinSyncRate inp.now = false) (hmap : (l.windows k).isSome) :
      PieceMove me l inp (.recheck ans none) l (.release (.getting (.probe ans k))) []
  | probeFailed {ans e} :
      PieceMove me l inp (.probeApply ans (.error e)) (l.storeErr (some e) inp.now)
        (.release (.answered ans (some e))) []
  | probeAcked {ans v} :
      PieceMove me l inp (.probeApply ans (.ok v)) (l.contacted inp.now)
        (.release (.answered ans none)) []
  | wakeStays : PieceMove me l inp .wake l (.release .finished) []
  | wakeStarts (hclosed : l.closed = false) (hstop : l.stopping = false)
      (hnone : l.flushTimer = none) :
      PieceMove me l inp .wake l.startFlush (.release .finished) []
  | closeTwice (hclosed : l.closed = true) :
      PieceMove me l inp .closeMark l (.release .finished) []
  | closeMark (hopen : l.closed = false) : PieceMove me l inp .closeMark { l with closed := true }
      (.release (.lock (.flushStart .close))) []
  | rearmEnds : PieceMove me l inp .rearm l (.release .tickDone) []
  | rearm (hclosed : l.closed = false) (hstop : l.stopping = false) :
      PieceMove me l inp .rearm l.rearm (.release .finished) []
  | stopNone (hnone : l.flushTimer = none) :
      PieceMove me l inp .stopMark { l with stopping := false } (.release .finished) []
  | stopMark {timer} (htimer : l.flushTimer = some timer) : PieceMove me l inp .stopMark
      { l with stopping := true, flushTimer := none } (.release (.stopTimer timer)) []
  | stopClear : PieceMove me l inp .stopClear { l with stopping := false }
      (.release .finished) []

theorem PieceMove.of_piece {n : ℕ} {me : Fin n} {l l' : Limiter} {inp : Input} {t : Todo}
    {next : Next} {evs : List (Event n)} (h : piece me l inp t = some (l', next, evs)) :
    PieceMove me l inp t l' next evs := by
  cases t with
  | takeEnter sl limit =>
    simp only [piece] at h
    split at h
    next hmap => cases h; exact .takeMiss hmap
    next j hmap =>
      split at h
      next hdelta => cases h; exact .takeBuffered hmap hdelta
      next hzero => cases h; exact .takeRefresh hmap (not_not.mp hzero)
  | takeApply sl limit reply =>
    cases reply with
    | error e => cases h; exact .takeFailed
    | ok known => cases h; exact .takeSeed
  | takePrev sl limit cur =>
    simp only [piece] at h
    split at h
    next hmap => cases h; exact .takePrevMiss hmap
    next j hmap => cases h; exact .takePrevBuffered hmap
  | takePrevApply sl limit cur reply =>
    cases reply with
    | error e => cases h; exact .takePrevFailed
    | ok known => cases h; exact .takePrevSeed
  | takeHit sl limit cur previous => cases h; exact .takeHit rfl
  | peekEnter sl limit =>
    simp only [piece] at h
    split at h
    next hmap => cases h; exact .peekMiss hmap
    next j hmap => cases h; exact .peekBuffered hmap
  | peekApply sl limit reply =>
    cases reply with
    | error e => cases h; exact .peekFailed
    | ok known => cases h; exact .peekSeed
  | peekPrev sl limit current =>
    simp only [piece] at h
    split at h
    next hmap => cases h; exact .peekPrevMiss hmap
    next j hmap => cases h; exact .peekPrevBuffered hmap rfl
  | peekPrevApply sl limit current reply =>
    cases reply with
    | error e => cases h; exact .peekPrevFailed
    | ok known => cases h; exact .peekPrevSeed rfl rfl
  | outage ans =>
    simp only [piece] at h
    split at h
    next e herr => cases h; exact .outageKept herr
    next herr =>
      split at h
      next hok => cases h; exact .outageRecent herr hok
      next hok => cases h; exact .outageProbe herr (Bool.eq_false_of_not_eq_true hok)
  | flushStart caller =>
    simp only [piece] at h
    split at h
    next horder => cases h; exact .flushStart horder
    · cases h
  | flushNext f jobs =>
    cases jobs with
    | nil => cases h; exact .flushLast
    | cons job rest => cases h; exact .flushSend
  | evalApply f job rest reply =>
    cases reply with
    | error e => cases h; exact .evalFailed
    | ok v => cases h; exact .evalAcked
  | evict f => cases h; exact .evict
  | recheck ans err =>
    cases err with
    | some e => cases h; exact .recheckFailed
    | none =>
      simp only [piece] at h
      split at h
      next e herr => cases h; exact .recheckKept herr
      next herr =>
        split at h
        next hok => cases h; exact .recheckRecent herr hok
        next hok =>
          have hok := Bool.eq_false_of_not_eq_true hok
          split at h
          · split at h
            next hempty => cases h; exact .recheckEmpty herr hok hempty
            · cases h
          · split at h
            next hmap => cases h; exact .recheckProbe herr hok hmap
            · cases h
  | probeApply ans reply =>
    cases reply with
    | error e => cases h; exact .probeFailed
    | ok v => cases h; exact .probeAcked
  | wake =>
    simp only [piece] at h
    split at h
    · cases h; exact .wakeStays
    next hgo =>
      obtain ⟨hclosed, hgo⟩ := not_or.mp hgo
      obtain ⟨_, hgo⟩ := not_or.mp hgo
      obtain ⟨htimer, hstop⟩ := not_or.mp hgo
      cases h
      exact .wakeStarts (eq_false_of_ne_true hclosed) (eq_false_of_ne_true hstop)
        (Option.not_isSome_iff_eq_none.mp htimer)
  | closeMark =>
    simp only [piece] at h
    split at h
    next hclosed => cases h; exact .closeTwice hclosed
    next hopen => cases h; exact .closeMark (eq_false_of_ne_true hopen)
  | rearm =>
    simp only [piece] at h
    split at h
    · cases h; exact .rearmEnds
    next hgo =>
      obtain ⟨hclosed, hgo⟩ := not_or.mp hgo
      obtain ⟨hstop, _⟩ := not_or.mp hgo
      cases h
      exact .rearm (eq_false_of_ne_true hclosed) (eq_false_of_ne_true hstop)
  | stopMark =>
    simp only [piece] at h
    split at h
    next hnone => cases h; exact .stopNone hnone
    next htimer => cases h; exact .stopMark htimer
  | stopClear => cases h; exact .stopClear

/-! ## The fields a count is not kept in

What is done to buffers leaves the mutex and the three fields of the outage
check alone. -/

structure SameOutage (l l' : Limiter) : Prop where
  mu : l'.mu = l.mu
  syncRate : l'.syncRate = l.syncRate
  lastFlushErr : l'.lastFlushErr = l.lastFlushErr
  lastRedisOK : l'.lastRedisOK = l.lastRedisOK

namespace SameOutage

variable {l : Limiter} {j : Ptr} {k : WindowKey} {e known : ℤ}

theorem raise : SameOutage l (l.raise j e) := by
  unfold Limiter.raise
  split <;> exact ⟨rfl, rfl, rfl, rfl⟩

theorem applyGet : SameOutage l (l.applyGet k known e).1 := by
  unfold Limiter.applyGet
  split
  · exact ⟨rfl, rfl, rfl, rfl⟩
  next i _ =>
    have h : SameOutage l (l.raise i e) := raise
    dsimp only
    split <;> exact ⟨h.mu, h.syncRate, h.lastFlushErr, h.lastRedisOK⟩

theorem nack : SameOutage l (l.nack k) := by
  unfold Limiter.nack
  split <;> exact ⟨rfl, rfl, rfl, rfl⟩

theorem startFlush : SameOutage l l.startFlush := by
  unfold Limiter.startFlush
  split <;> exact ⟨rfl, rfl, rfl, rfl⟩

end SameOutage

theorem PieceMove.control {n : ℕ} {me : Fin n} {l l' : Limiter} {inp : Input} {t : Todo}
    {next : Next} {evs : List (Event n)} (h : PieceMove me l inp t l' next evs) :
    l'.mu = l.mu ∧ l'.syncRate = l.syncRate := by
  have hraise : ∀ j e, (l.raise j e).mu = l.mu ∧ (l.raise j e).syncRate = l.syncRate :=
    fun j e => ⟨SameOutage.raise.mu, SameOutage.raise.syncRate⟩
  have hget : ∀ k v e, ((l.contacted inp.now).applyGet k v e).1.mu = l.mu ∧
      ((l.contacted inp.now).applyGet k v e).1.syncRate = l.syncRate :=
    fun k v e => ⟨SameOutage.applyGet.mu, SameOutage.applyGet.syncRate⟩
  have hstore : ∀ (l : Limiter) err now, (l.storeErr err now).mu = l.mu ∧
      (l.storeErr err now).syncRate = l.syncRate := by
    intro l err now
    cases err <;> exact ⟨rfl, rfl⟩
  cases h with
  | takeRefresh | takeBuffered | peekBuffered => exact hraise _ _
  | takeSeed | takePrevSeed | peekSeed => exact hget _ _ _
  | peekPrevSeed hr => rw [hr]; exact hget _ _ _
  | evalFailed => exact ⟨SameOutage.nack.mu, SameOutage.nack.syncRate⟩
  | evalAcked =>
    unfold Limiter.ack
    split <;> exact ⟨rfl, rfl⟩
  | evict => exact hstore _ _ _
  | probeFailed => exact hstore _ _ _
  | wakeStarts => exact ⟨SameOutage.startFlush.mu, SameOutage.startFlush.syncRate⟩
  | _ => exact ⟨rfl, rfl⟩

/-! ## Steps of the world -/

/-- The world after a piece of process `p`, on limiter `i`. -/
def World.afterPiece {n : ℕ} (w : World n) (p : ℕ) (i : Fin n) (now : ℕ) (l : Limiter)
    (next : Next) (evs : List (Event n)) : World n :=
  (({ w.reading now with log := w.log ++ evs } : World n).setLimiter i (next.unlock l)).setProc
    p i next.pc

inductive Moved {n : ℕ} (w : World n) : Action n → World n → Prop where
  | takeRefused {i key limit window now e} (hsl : slidingAt key window now = .error e) :
      Moved w (.take i key limit window now) (w.reading now)
  | took {i key limit window now sl} (hsl : slidingAt key window now = .ok sl) :
      Moved w (.take i key limit window now)
        (((w.reading now).ask sl).spawn i (.lock (.takeEnter sl limit)))
  | peekRefused {i key limit window now e} (hsl : slidingAt key window now = .error e) :
      Moved w (.peek i key limit window now) (w.reading now)
  | peeked {i key limit window now sl} (hsl : slidingAt key window now = .ok sl) :
      Moved w (.peek i key limit window now)
        (((w.reading now).ask sl).spawn i (.lock (.peekEnter sl limit)))
  | slept {i} : Moved w (.sleep i) (w.spawn i (.lock (.flushStart .sleep)))
  | woken {i} : Moved w (.wake i) (w.spawn i (.lock .wake))
  | closing {i} : Moved w (.close i) (w.spawn i (.lock .closeMark))
  | fired {i timer} (harmed : (w.limiters i).timers timer = .armed) :
      Moved w (.fire i timer)
        ((w.setTimer i timer .fired).spawn i (.lock (.flushStart .tick)))
  | acquired {p inp i t} (hp : w.procs p = some ⟨i, .lock t⟩)
      (hmu : (w.limiters i).mu = none) :
      Moved w (.run p inp)
        ((w.setLimiter i { w.limiters i with mu := some p }).setProc p i (.held t))
  | piece {p inp i t l next evs} (hp : w.procs p = some ⟨i, .held t⟩)
      (hm : PieceMove i (w.limiters i) inp t l next evs) :
      Moved w (.run p inp) (w.afterPiece p i inp.now l next evs)
  | tickDone {p inp i} (hp : w.procs p = some ⟨i, .tickDone⟩) :
      Moved w (.run p inp) ((w.setLimiter i (w.limiters i).done).setProc p i .finished)
  | stopInTime {p inp i timer} (hp : w.procs p = some ⟨i, .stopTimer timer⟩)
      (harmed : (w.limiters i).timers timer = .armed) :
      Moved w (.run p inp) ((w.setTimer i timer .stopped).setProc p i .stopDone)
  | stopLate {p inp i timer} (hp : w.procs p = some ⟨i, .stopTimer timer⟩)
      (hlate : (w.limiters i).timers timer ≠ .armed) :
      Moved w (.run p inp) (w.setProc p i .stopWait)
  | stopDone {p inp i} (hp : w.procs p = some ⟨i, .stopDone⟩) :
      Moved w (.run p inp) ((w.setLimiter i (w.limiters i).done).setProc p i .stopWait)
  | stopWaited {p inp i} (hp : w.procs p = some ⟨i, .stopWait⟩)
      (hbusy : (w.limiters i).flushBusy = 0) :
      Moved w (.run p inp) (w.setProc p i (.lock .stopClear))
  | gotError {p i g e} (hp : w.procs p = some ⟨i, .getting g⟩) :
      Moved w (.get p (some e)) (w.setProc p i (.lock (g.todo (.error e))))
  | got {p i g} (hp : w.procs p = some ⟨i, .getting g⟩) :
      Moved w (.get p none) (w.setProc p i (.lock (g.todo (.ok (w.redis.get g.key)))))
  | evalError {p i f job rest e} (hp : w.procs p = some ⟨i, .evaling f job rest⟩) :
      Moved w (.eval p (some e)) (w.setProc p i (.lock (.evalApply f job rest (.error e))))
  | evaled {p i f job rest r} (hp : w.procs p = some ⟨i, .evaling f job rest⟩)
      (hr : r = w.redis.flush job.key job.delta job.expireAt) :
      Moved w (.eval p none) (({ w with
        redis := r
        log := w.log ++ [Event.applied i job.key job.delta] } : World n).setProc p i
          (.lock (.evalApply f job rest (.ok (r.get job.key)))))
  | expired {k now t} (hexp : (w.redis k).bind (·.expireAt) = some t) (hnow : t ≤ unix now) :
      Moved w (.expire k now) { w.reading now with redis := w.redis.lose k }

namespace Moved

variable {n : ℕ} {w w' : World n}

theorem of_begin {i : Fin n} {key : String} {window : ℤ} {now : ℕ}
    {todo : SlidingWindow → Todo} {a : Action n}
    (hrefused : ∀ e, slidingAt key window now = .error e → Moved w a (w.reading now))
    (hbegun : ∀ sl, slidingAt key window now = .ok sl →
      Moved w a (((w.reading now).ask sl).spawn i (.lock (todo sl)))) :
    Moved w a (w.begin i key window now todo) := by
  unfold World.begin
  split
  next e hsl => exact hrefused e hsl
  next sl hsl => exact hbegun sl hsl

theorem of_runProc {p : ℕ} {inp : Input} (h : w.runProc p inp = some w') :
    Moved w (.run p inp) w' := by
  unfold World.runProc at h
  split at h
  · cases h
  next i t hp =>
    split at h
    next hmu => cases h; exact .acquired hp hmu
    · cases h
  next i t hp =>
    split at h
    · cases h
    next l next evs hpiece => cases h; exact .piece hp (.of_piece hpiece)
  next i hp => cases h; exact .tickDone hp
  next i timer hp =>
    split at h
    next harmed => cases h; exact .stopInTime hp harmed
    next hlate => cases h; exact .stopLate hp hlate
  next i hp => cases h; exact .stopDone hp
  next i hp =>
    split at h
    next hbusy => cases h; exact .stopWaited hp hbusy
    · cases h
  · cases h

theorem of_step {a : Action n} (h : w.step a = some w') : Moved w a w' := by
  cases a with
  | take i key limit window now =>
    cases h
    exact of_begin (fun _ => .takeRefused) fun _ => .took
  | peek i key limit window now =>
    cases h
    exact of_begin (fun _ => .peekRefused) fun _ => .peeked
  | sleep i => cases h; exact .slept
  | wake i => cases h; exact .woken
  | close i => cases h; exact .closing
  | fire i timer =>
    have h : w.runFire i timer = some w' := h
    unfold World.runFire at h
    split at h
    next harmed => cases h; exact .fired harmed
    · cases h
  | run p inp => exact of_runProc h
  | get p err =>
    have h : w.runGet p err = some w' := h
    unfold World.runGet at h
    split at h
    next i g hp =>
      cases err with
      | none => cases h; exact .got hp
      | some e => cases h; exact .gotError hp
    · cases h
  | eval p err =>
    have h : w.runEval p err = some w' := h
    unfold World.runEval at h
    split at h
    next i f job rest hp =>
      cases err with
      | none => cases h; exact .evaled hp rfl
      | some e => cases h; exact .evalError hp
    · cases h
  | expire k now =>
    have h : w.runExpire k now = some w' := h
    unfold World.runExpire at h
    split at h
    next t hexp =>
      split at h
      next hnow => cases h; exact .expired hexp hnow
      · cases h
    · cases h

end Moved

/-! ## A step, seen from one process and from one limiter -/

inductive Begins {n : ℕ} (i : Fin n) : Action n → Pc → Prop where
  | take {key limit window now sl} (hsl : slidingAt key window now = .ok sl) :
      Begins i (.take i key limit window now) (.lock (.takeEnter sl limit))
  | peek {key limit window now sl} (hsl : slidingAt key window now = .ok sl) :
      Begins i (.peek i key limit window now) (.lock (.peekEnter sl limit))
  | sleep : Begins i (.sleep i) (.lock (.flushStart .sleep))
  | wake : Begins i (.wake i) (.lock .wake)
  | close : Begins i (.close i) (.lock .closeMark)
  | fire {timer} : Begins i (.fire i timer) (.lock (.flushStart .tick))

/-- How process `q` of limiter `i` moves in a step of its own. -/
inductive PcMoved {n : ℕ} (w w' : World n) (q : ℕ) (i : Fin n) :
    Action n → Pc → Pc → Prop where
  | acquired {inp t} (hmu : (w.limiters i).mu = none) :
      PcMoved w w' q i (.run q inp) (.lock t) (.held t)
  | piece {inp t l next evs} (hm : PieceMove i (w.limiters i) inp t l next evs)
      (hl : w'.limiters i = next.unlock l) :
      PcMoved w w' q i (.run q inp) (.held t) next.pc
  | tickDone {inp} : PcMoved w w' q i (.run q inp) .tickDone .finished
  | stopInTime {inp timer} : PcMoved w w' q i (.run q inp) (.stopTimer timer) .stopDone
  | stopLate {inp timer} : PcMoved w w' q i (.run q inp) (.stopTimer timer) .stopWait
  | stopDone {inp} : PcMoved w w' q i (.run q inp) .stopDone .stopWait
  | stopWaited {inp} : PcMoved w w' q i (.run q inp) .stopWait (.lock .stopClear)
  | gotError {g e} : PcMoved w w' q i (.get q (some e)) (.getting g) (.lock (g.todo (.error e)))
  | got {g} : PcMoved w w' q i (.get q none) (.getting g)
      (.lock (g.todo (.ok (w.redis.get g.key))))
  | evalError {f job rest e} : PcMoved w w' q i (.eval q (some e)) (.evaling f job rest)
      (.lock (.evalApply f job rest (.error e)))
  | evaled {f job rest r} (hr : r = w.redis.flush job.key job.delta job.expireAt) :
      PcMoved w w' q i (.eval q none) (.evaling f job rest)
        (.lock (.evalApply f job rest (.ok (r.get job.key))))

/-- A step changed nothing of a limiter but its mutex, its timers and the
flags of Sleep and Close. -/
structure Untouched (l l' : Limiter) : Prop where
  windows : l'.windows = l.windows
  states : l'.states = l.states
  nextPtr : l'.nextPtr = l.nextPtr
  syncRate : l'.syncRate = l.syncRate
  lastFlushErr : l'.lastFlushErr = l.lastFlushErr
  lastRedisOK : l'.lastRedisOK = l.lastRedisOK

namespace Moved

variable {n : ℕ} {w w' : World n} {a : Action n} {i : Fin n} {q : ℕ} {pc : Pc}

theorem setProc_cases {w₁ : World n} {p : ℕ} {i' : Fin n} {pc' : Pc} {P : Prop}
    (hprocs : w₁.procs = w.procs) (hq : (w₁.setProc p i' pc').procs q = some ⟨i, pc⟩)
    (hmine : q = p → i = i' → pc = pc' → P) : w.procs q = some ⟨i, pc⟩ ∨ P := by
  rcases World.setProc_procs hq with ⟨hqp, hi, hpc⟩ | ⟨_, hold⟩
  · exact .inr (hmine hqp hi hpc)
  · rw [hprocs] at hold
    exact .inl hold

theorem proc (hm : Moved w a w') (hq : w'.procs q = some ⟨i, pc⟩) :
    w.procs q = some ⟨i, pc⟩ ∨ (q = w.next ∧ Begins i a pc) ∨
      ∃ old, w.procs q = some ⟨i, old⟩ ∧ PcMoved w w' q i a old pc := by
  have hgoes : ∀ {w₁ : World n} {p : ℕ} {i' : Fin n} {old new : Pc}, w₁.procs = w.procs →
      w.procs p = some ⟨i', old⟩ → w'.procs = (w₁.setProc p i' new).procs →
      PcMoved w w' p i' a old new → w.procs q = some ⟨i, pc⟩ ∨ (q = w.next ∧ Begins i a pc) ∨
        ∃ old, w.procs q = some ⟨i, old⟩ ∧ PcMoved w w' q i a old pc := by
    intro w₁ p i' old new hprocs hp hw hmove
    refine setProc_cases hprocs (hw ▸ hq) ?_
    rintro rfl rfl rfl
    exact .inr ⟨_, hp, hmove⟩
  cases hm with
  | takeRefused | peekRefused | expired => exact .inl hq
  | took hsl => exact setProc_cases rfl hq fun hn hi hpc => .inl ⟨hn, hi ▸ hpc ▸ .take hsl⟩
  | peeked hsl => exact setProc_cases rfl hq fun hn hi hpc => .inl ⟨hn, hi ▸ hpc ▸ .peek hsl⟩
  | slept => exact setProc_cases rfl hq fun hn hi hpc => .inl ⟨hn, hi ▸ hpc ▸ .sleep⟩
  | woken => exact setProc_cases rfl hq fun hn hi hpc => .inl ⟨hn, hi ▸ hpc ▸ .wake⟩
  | closing => exact setProc_cases rfl hq fun hn hi hpc => .inl ⟨hn, hi ▸ hpc ▸ .close⟩
  | fired => exact setProc_cases rfl hq fun hn hi hpc => .inl ⟨hn, hi ▸ hpc ▸ .fire⟩
  | acquired hp hmu => exact hgoes rfl hp rfl (.acquired hmu)
  | piece hp hpm => exact hgoes rfl hp rfl (.piece hpm (update_self ..))
  | tickDone hp => exact hgoes rfl hp rfl .tickDone
  | stopInTime hp => exact hgoes rfl hp rfl .stopInTime
  | stopLate hp => exact hgoes rfl hp rfl .stopLate
  | stopDone hp => exact hgoes rfl hp rfl .stopDone
  | stopWaited hp => exact hgoes rfl hp rfl .stopWaited
  | gotError hp => exact hgoes rfl hp rfl .gotError
  | got hp => exact hgoes rfl hp rfl .got
  | evalError hp => exact hgoes rfl hp rfl .evalError
  | evaled hp hr => exact hgoes rfl hp rfl (.evaled hr)

theorem persists (hm : Moved w a w') (hq : w.procs q = some ⟨i, pc⟩) (hborn : q ≠ w.next) :
    ∃ pc', w'.procs q = some ⟨i, pc'⟩ := by
  have hspawn : ∀ {w₁ : World n} {i' : Fin n} {start : Pc}, w₁.procs = w.procs → w₁.next = w.next →
      ∃ pc', (w₁.spawn i' start).procs q = some ⟨i, pc'⟩ := by
    intro w₁ i' start hprocs hnext
    refine ⟨pc, ?_⟩
    show update w₁.procs w₁.next _ q = _
    rw [update_of_ne (by rw [hnext]; exact hborn), hprocs, hq]
  have hmove : ∀ {w₁ : World n} {p : ℕ} {i' : Fin n} {old new : Pc}, w₁.procs = w.procs →
      w.procs p = some ⟨i', old⟩ → ∃ pc', (w₁.setProc p i' new).procs q = some ⟨i, pc'⟩ := by
    intro w₁ p i' old new hprocs hp
    show ∃ pc', update w₁.procs p (some ⟨i', new⟩) q = some ⟨i, pc'⟩
    by_cases hqp : q = p
    · subst hqp
      rw [hp] at hq
      cases hq
      exact ⟨new, update_self ..⟩
    · exact ⟨pc, by rw [update_of_ne hqp, hprocs, hq]⟩
  cases hm with
  | takeRefused | peekRefused | expired => exact ⟨pc, hq⟩
  | took | peeked | slept | woken | closing | fired => exact hspawn rfl rfl
  | acquired hp | piece hp | tickDone hp | stopInTime hp | stopLate hp | stopDone hp
  | stopWaited hp | gotError hp | got hp | evalError hp | evaled hp => exact hmove rfl hp

theorem proc_from (hm : Moved w a w') (hq : w.procs q = some ⟨i, pc⟩) (hborn : q ≠ w.next) :
    w'.procs q = some ⟨i, pc⟩ ∨
      ∃ pc', w'.procs q = some ⟨i, pc'⟩ ∧ PcMoved w w' q i a pc pc' := by
  obtain ⟨pc', hq'⟩ := hm.persists hq hborn
  rcases hm.proc hq' with hold | ⟨hn, _⟩ | ⟨old, hold, hmove⟩
  · rw [hq] at hold
    cases hold
    exact .inl hq'
  · exact absurd hn hborn
  · rw [hq] at hold
    cases hold
    exact .inr ⟨pc', hq', hmove⟩

theorem untouched_refl (l : Limiter) : Untouched l l := ⟨rfl, rfl, rfl, rfl, rfl, rfl⟩

theorem untouched_setLimiter {l : Limiter} {i' : Fin n} (h : Untouched (w.limiters i') l)
    (i : Fin n) : Untouched (w.limiters i) ((w.setLimiter i' l).limiters i) := by
  show Untouched _ (update w.limiters i' l i)
  by_cases hi : i = i'
  · subst hi
    rw [update_self]
    exact h
  · rw [update_of_ne hi]
    exact untouched_refl _

theorem limiter (hm : Moved w a w') (i : Fin n) :
    Untouched (w.limiters i) (w'.limiters i) ∨
      ∃ p inp t l next evs, a = .run p inp ∧ w.procs p = some ⟨i, .held t⟩ ∧
        PieceMove i (w.limiters i) inp t l next evs ∧
        w' = w.afterPiece p i inp.now l next evs ∧ w'.limiters i = next.unlock l := by
  cases hm with
  | @piece p inp i' t l next evs hp hpm =>
    by_cases hi : i = i'
    · subst hi
      exact .inr ⟨p, inp, t, l, next, evs, rfl, hp, hpm, rfl, update_self ..⟩
    · left
      have hother : (w.afterPiece p i' inp.now l next evs).limiters i = w.limiters i :=
        update_of_ne hi ..
      rw [hother]
      exact untouched_refl _
  | acquired | tickDone | stopDone | stopInTime | fired =>
    refine .inl (untouched_setLimiter ?_ i)
    exact ⟨rfl, rfl, rfl, rfl, rfl, rfl⟩
  | _ => exact .inl (untouched_refl _)

end Moved

theorem Moved.next_cases {n : ℕ} {w w' : World n} {a : Action n} (hm : Moved w a w') :
    w'.next = w.next ∨ w'.next = w.next + 1 := by
  cases hm with
  | took | peeked | slept | woken | closing | fired => exact .inr rfl
  | _ => exact .inl rfl

def World.Known {n : ℕ} (w : World n) : Prop := ∀ p, w.next ≤ p → w.procs p = none

theorem World.Known.lt_next {n : ℕ} {w : World n} (h : w.Known) {p : ℕ} {proc : Proc n}
    (hp : w.procs p = some proc) : p < w.next := by
  by_contra hge
  exact nomatch (h p (not_lt.mp hge)).symm.trans hp

theorem World.Known.spawn {n : ℕ} {w : World n} {i : Fin n} {start : Pc} (h : w.Known) :
    (w.spawn i start).Known := by
  intro q hq
  have hq : w.next + 1 ≤ q := hq
  exact (update_of_ne (by omega) ..).trans (h q (by omega))

theorem World.Known.setProc {n : ℕ} {w : World n} {p : ℕ} {proc : Proc n} {i : Fin n} {pc : Pc}
    (h : w.Known) (hp : w.procs p = some proc) : (w.setProc p i pc).Known := by
  intro q hq
  have hlt := h.lt_next hp
  have hq : w.next ≤ q := hq
  exact (update_of_ne (by omega) ..).trans (h q hq)

theorem World.Known.step {n : ℕ} {w w' : World n} {a : Action n} (h : w.Known)
    (hm : Moved w a w') : w'.Known := by
  cases hm with
  | takeRefused | peekRefused | expired => exact h
  | took | peeked | slept | woken | closing | fired => exact World.Known.spawn h
  | acquired hp | piece hp | tickDone hp | stopInTime hp | stopLate hp | stopDone hp
  | stopWaited hp | gotError hp | got hp | evalError hp | evaled hp =>
    exact World.Known.setProc h hp

/-! ## One holder of the lock -/

/-- At a piece, and so with the lock. -/
def Pc.isHeld : Pc → Bool
  | .held _ => true
  | _ => false

/-- Whoever is at a lock-held piece has the mutex of its limiter. -/
def Locked {n : ℕ} (w : World n) : Prop :=
  ∀ p i t, w.procs p = some ⟨i, .held t⟩ → (w.limiters i).mu = some p

namespace Locked

variable {n : ℕ} {w w' : World n} {i : Fin n} {p : ℕ} {pc : Pc} {l : Limiter}

theorem init {redis : Store} {limiters : Fin n → Limiter} :
    Locked (World.init redis limiters) := by
  intro p i t hp
  cases hp

theorem unique {q : ℕ} {t t' : Todo} (h : Locked w) (hp : w.procs p = some ⟨i, .held t⟩)
    (hq : w.procs q = some ⟨i, .held t'⟩) : p = q :=
  Option.some.inj ((h p i t hp).symm.trans (h q i t' hq))

theorem quiet (h : Locked w) (hmu : ∀ i', (w'.limiters i').mu = (w.limiters i').mu)
    (hprocs : ∀ q i' t, w'.procs q = some ⟨i', .held t⟩ → w.procs q = some ⟨i', .held t⟩) :
    Locked w' := by
  intro q i' t hq
  rw [hmu]
  exact h q i' t (hprocs q i' t hq)

theorem mu_setLimiter_self : ((w.setLimiter i l).limiters i).mu = l.mu := by
  show (update w.limiters i l i).mu = l.mu
  rw [update_self]

theorem mu_setLimiter_of_ne {i' : Fin n} (hi : i' ≠ i) :
    ((w.setLimiter i l).limiters i').mu = (w.limiters i').mu := by
  show (update w.limiters i l i').mu = _
  rw [update_of_ne hi]

theorem setLimiter_mu (hmu : l.mu = (w.limiters i).mu) (i' : Fin n) :
    ((w.setLimiter i l).limiters i').mu = (w.limiters i').mu := by
  by_cases hi : i' = i
  · subst hi
    rw [mu_setLimiter_self, hmu]
  · exact mu_setLimiter_of_ne hi

theorem setProc_held {q : ℕ} {i' : Fin n} {t : Todo} (hpc : pc.isHeld = false)
    (hq : (w.setProc p i pc).procs q = some ⟨i', .held t⟩) :
    w.procs q = some ⟨i', .held t⟩ := by
  rcases World.setProc_procs hq with ⟨_, _, hpc'⟩ | ⟨_, hold⟩
  · rw [← hpc'] at hpc
    cases hpc
  · exact hold

theorem goto (h : Locked w) (hpc : pc.isHeld = false) : Locked (w.setProc p i pc) :=
  h.quiet (fun _ => rfl) fun _ _ _ hq => setProc_held hpc hq

theorem moves (h : Locked w) (hmu : l.mu = (w.limiters i).mu) (hpc : pc.isHeld = false) :
    Locked ((w.setLimiter i l).setProc p i pc) :=
  h.quiet (setLimiter_mu hmu) fun _ _ _ hq => setProc_held hpc hq

theorem spawn (h : Locked w) (hpc : pc.isHeld = false) : Locked (w.spawn i pc) :=
  h.quiet (fun _ => rfl) fun _ _ _ hq => setProc_held hpc hq

theorem acquired {t : Todo} (h : Locked w) (hmu : (w.limiters i).mu = none) :
    Locked ((w.setLimiter i { w.limiters i with mu := some p }).setProc p i (.held t)) := by
  intro q i' t' hq
  rcases World.setProc_procs hq with ⟨rfl, rfl, _⟩ | ⟨_, hold⟩
  · exact mu_setLimiter_self
  · have hq' := h q i' t' hold
    have hi : i' ≠ i := by
      rintro rfl
      rw [hmu] at hq'
      cases hq'
    exact (mu_setLimiter_of_ne hi).trans hq'

theorem piece {t : Todo} {inp : Input} {next : Next} {evs : List (Event n)} (h : Locked w)
    (hp : w.procs p = some ⟨i, .held t⟩) (hm : PieceMove i (w.limiters i) inp t l next evs)
    (hnext : ∀ pc, next = .release pc → pc.isHeld = false) :
    Locked (w.afterPiece p i inp.now l next evs) := by
  intro q i' t' hq
  have hmine := h p i t hp
  rcases World.setProc_procs hq with ⟨rfl, rfl, hpc⟩ | ⟨hne, hold⟩
  · cases next with
    | hold t'' =>
      exact mu_setLimiter_self.trans (hm.control.1.trans hmine)
    | release pc =>
      have hpc : Pc.held t' = pc := hpc
      have hrel := hnext pc rfl
      rw [← hpc] at hrel
      cases hrel
  · have hq' := h q i' t' hold
    have hi : i' ≠ i := by
      rintro rfl
      exact hne (Option.some.inj (hq'.symm.trans hmine))
    exact (mu_setLimiter_of_ne hi).trans hq'

theorem release_not_held {t : Todo} {inp : Input} {l' : Limiter} {next : Next}
    {evs : List (Event n)} (hm : PieceMove i l inp t l' next evs) (hnext : next = .release pc) :
    pc.isHeld = false := by
  cases hm with
  | evict =>
    unfold afterFlush at hnext
    split at hnext <;> cases hnext <;> rfl
  | _ => cases hnext <;> rfl

theorem step (h : Locked w) {a : Action n} (hm : Moved w a w') : Locked w' := by
  cases hm with
  | takeRefused | peekRefused => exact h.quiet (fun _ => rfl) fun _ _ _ hq => hq
  | took | peeked =>
    exact Locked.spawn (h.quiet (fun _ => rfl) fun _ _ _ hq => hq) rfl
  | slept | woken | closing => exact h.spawn rfl
  | fired => exact Locked.spawn (h.quiet (setLimiter_mu rfl) fun _ _ _ hq => hq) rfl
  | acquired hp hmu => exact h.acquired hmu
  | piece hp hpm =>
    exact h.piece hp hpm fun _ => release_not_held hpm
  | tickDone | stopDone | stopInTime => exact h.moves rfl rfl
  | stopLate | stopWaited => exact h.goto rfl
  | gotError | got | evalError => exact h.goto rfl
  | evaled => exact Locked.goto (h.quiet (fun _ => rfl) fun _ _ _ hq => hq) rfl
  | expired => exact h.quiet (fun _ => rfl) fun _ _ _ hq => hq

end Locked

end MiddlewareUtils.WindowCounter
