import MiddlewareUtils.WindowCounter.Buffered
import Mathlib.Algebra.BigOperators.Fin

/-!
# The buffered counts as a ledger

A hit on a window key is in one of three places: in the `localDelta` of the
buffer the map holds for the key, in Redis and acknowledged, or in Redis
with the acknowledgement still on its way. This file names the three, reads
them off a world, and says which program counters stand for an EVAL in
flight and for a pointer held across an unlock. What is true of them is
proved elsewhere.
-/

namespace MiddlewareUtils.WindowCounter

/-! ## What a program counter holds -/

namespace Todo

def window : Todo → Option SlidingWindow
  | takeEnter sl _ | takeApply sl _ _ | peekEnter sl _ | peekApply sl _ _ => some sl
  | _ => none

def take : Todo → Option (SlidingWindow × ℤ)
  | takeEnter sl limit | takeApply sl limit _ | takePrev sl limit _
  | takePrevApply sl limit _ _ | takeHit sl limit _ _ => some (sl, limit)
  | _ => none

/-- The buffer a Take will count its hit in, and the key it got it for. -/
def cur : Todo → Option (WindowKey × Ptr)
  | takePrev sl _ cur | takePrevApply sl _ cur _ | takeHit sl _ cur _ =>
    some (sl.currentKey, cur)
  | _ => none

def flush : Todo → Option Flush
  | flushNext f _ | evalApply f _ _ _ | evict f => some f
  | _ => none

def jobs : Todo → List Job
  | flushNext _ jobs => jobs
  | evalApply _ job rest _ => job :: rest
  | _ => []

/-- The EVAL that Redis has applied and `l.windows` does not know of. -/
def landed : Todo → Option (WindowKey × ℤ)
  | evalApply _ job _ (.ok v) => some (job.key, v)
  | _ => none

/-- The EVAL whose reply is at hand. -/
def evaled : Todo → Option WindowKey
  | evalApply _ job _ _ => some job.key
  | _ => none

end Todo

namespace Pc

def window : Pc → Option SlidingWindow
  | lock t | held t => t.window
  | getting (.takeCurrent sl _) | getting (.peekCurrent sl _) => some sl
  | _ => none

def take : Pc → Option (SlidingWindow × ℤ)
  | lock t | held t => t.take
  | getting (.takeCurrent sl limit) | getting (.takePrevious sl limit _) => some (sl, limit)
  | _ => none

def cur : Pc → Option (WindowKey × Ptr)
  | lock t | held t => t.cur
  | getting (.takePrevious sl _ cur) => some (sl.currentKey, cur)
  | _ => none

def flush : Pc → Option Flush
  | lock t | held t => t.flush
  | evaling f _ _ => some f
  | _ => none

def jobs : Pc → List Job
  | lock t | held t => t.jobs
  | evaling _ job rest => job :: rest
  | _ => []

def landed : Pc → Option (WindowKey × ℤ)
  | lock t | held t => t.landed
  | _ => none

/-- The key of an EVAL that was sent and whose outcome `l.mu` has not seen. -/
def inFlight : Pc → Option WindowKey
  | lock t | held t => t.evaled
  | evaling _ job _ => some job.key
  | _ => none

theorem inFlight_mem {pc : Pc} {k : WindowKey} (h : pc.inFlight = some k) :
    ∃ job ∈ pc.jobs, job.key = k := by
  cases pc with
  | lock t | held t =>
    cases t <;> try cases h
    exact ⟨_, List.mem_cons_self, rfl⟩
  | evaling f job rest =>
    cases h
    exact ⟨job, List.mem_cons_self, rfl⟩
  | _ => cases h

theorem landed_inFlight {pc : Pc} {k : WindowKey} {v : ℤ} (h : pc.landed = some (k, v)) :
    pc.inFlight = some k := by
  cases pc with
  | lock t | held t =>
    cases t <;> try cases h
    next f job rest reply =>
      cases reply <;> cases h
      rfl
  | _ => cases h

end Pc

/-! ## The three places of a hit -/

namespace Limiter

/-- The `localDelta` stored under `k` in `l.windows`. -/
def pendingDelta (l : Limiter) (k : WindowKey) : ℤ :=
  match l.windows k with
  | none => 0
  | some j => (l.states j).localDelta

theorem new_empty {l : Limiter} {rate : ℤ} (h : new rate = some l) :
    l.windows = (fun _ => none) ∧ l.nextPtr = 0 := by
  unfold new at h
  split at h
  · cases h
  · injection h with h
    rw [← h]
    repeat' split
    all_goals exact ⟨rfl, rfl⟩

theorem new_silent {l : Limiter} {rate : ℤ} (h : new rate = some l) :
    l.mu = none ∧ l.lastFlushErr = none ∧ l.lastRedisOK = none := by
  unfold new at h
  split at h
  · cases h
  · injection h with h
    rw [← h]
    repeat' split
    all_goals exact ⟨rfl, rfl, rfl⟩

/-- The `flushDelta` stored under `k`. -/
def flushOf (l : Limiter) (k : WindowKey) : Option ℤ :=
  (l.windows k).map fun j => (l.states j).flushDelta

end Limiter

namespace Event

variable {n : ℕ}

def hits (i : Fin n) (k : WindowKey) : Event n → ℤ
  | hit i' k' _ => if i' = i ∧ k' = k then 1 else 0
  | _ => 0

def admits (i : Fin n) (k : WindowKey) : Event n → ℤ
  | hit i' k' allowed => if (i' = i ∧ k' = k) ∧ allowed = true then 1 else 0
  | _ => 0

def applies (i : Fin n) (k : WindowKey) : Event n → ℤ
  | applied i' k' delta => if i' = i ∧ k' = k then delta else 0
  | _ => 0

def acks (i : Fin n) (k : WindowKey) : Event n → ℤ
  | acked i' k' delta => if i' = i ∧ k' = k then delta else 0
  | _ => 0

end Event

namespace World

variable {n : ℕ}

@[simp] theorem limiters_setProc {w : World n} {p : ℕ} {i : Fin n} {pc : Pc} :
    (w.setProc p i pc).limiters = w.limiters := rfl

theorem procs_setProc {w : World n} {p : ℕ} {i : Fin n} {pc : Pc} :
    (w.setProc p i pc).procs = Function.update w.procs p (some ⟨i, pc⟩) := rfl

theorem setProc_procs {w : World n} {p q : ℕ} {i i' : Fin n} {pc qc : Pc}
    (h : (w.setProc p i pc).procs q = some ⟨i', qc⟩) :
    (q = p ∧ i' = i ∧ qc = pc) ∨ (q ≠ p ∧ w.procs q = some ⟨i', qc⟩) := by
  by_cases hq : q = p
  · subst hq
    rw [procs_setProc, Function.update_self] at h
    injection h with h
    injection h with hi hpc
    exact .inl ⟨rfl, hi.symm, hpc.symm⟩
  · rw [procs_setProc, Function.update_of_ne hq] at h
    exact .inr ⟨hq, h⟩

/-- How many `localDelta++` limiter `i` has executed on `k`. -/
def hits (w : World n) (i : Fin n) (k : WindowKey) : ℤ := (w.log.map (Event.hits i k)).sum

/-- How many of them answered `allowed = true`. -/
def admitted (w : World n) (i : Fin n) (k : WindowKey) : ℤ :=
  (w.log.map (Event.admits i k)).sum

/-- The deltas of `i`'s EVALs on `k` that Redis has applied. -/
def applied (w : World n) (i : Fin n) (k : WindowKey) : ℤ :=
  (w.log.map (Event.applies i k)).sum

/-- The deltas of `i`'s EVALs on `k` that were acknowledged to the limiter. -/
def acked (w : World n) (i : Fin n) (k : WindowKey) : ℤ := (w.log.map (Event.acks i k)).sum

/-- No clock reading has reached an expiry of `k`. -/
def Fresh (w : World n) (k : WindowKey) : Prop := ∀ t ∈ w.asked k, w.clock < t

instance (w : World n) (k : WindowKey) : Decidable (w.Fresh k) :=
  inferInstanceAs (Decidable (∀ t ∈ w.asked k, w.clock < t))

/-- Process `p` has an EVAL of limiter `i` on `k` in flight. -/
def InFlight (w : World n) (p : ℕ) (i : Fin n) (k : WindowKey) : Prop :=
  ∃ pc, w.procs p = some ⟨i, pc⟩ ∧ pc.inFlight = some k

/-- Limiters fresh from `New` over a Redis that may already hold counts. -/
def init (redis : Store) (limiters : Fin n → Limiter) : World n where
  redis := redis
  limiters := limiters
  next := 0
  procs := fun _ => none
  clock := 0
  asked := fun k => ((redis k).bind (·.expireAt)).toList
  log := []

end World

end MiddlewareUtils.WindowCounter
