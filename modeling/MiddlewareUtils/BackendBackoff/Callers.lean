import MiddlewareUtils.Lib.Run
import MiddlewareUtils.BackendBackoff.Gate

/-!
# Concurrent callers of one gate

An attempt is a process: it calls `Allow`, and if it was admitted it ends
some time later and calls `Report` with its outcome. Both calls are two
steps, because `now := g.now()` comes before `g.mu.Lock()`: a process that
has read the clock may wait for the lock while others read and lock. The
clock itself does not go back in real time. A `stray` Report comes from
nowhere, with no attempt behind it; a caller that keeps to the rules makes
none.

`reads`, `applied` and `lease` are bookkeeping. Readings are numbered in the
order they were made. `applied` has, for each key, the readings its entry
was written with, the latest first. `lease` is the attempt that was last
admitted into HALF-OPEN on the key.
-/

namespace MiddlewareUtils.BackendBackoff

open Lib Function

/-- The number of a reading and what it read. -/
abbrev Reading := ℕ × ℤ

/-- Where a caller stands: before its reading, before the lock, or between calls. -/
inductive Pc where
  | allowRead
  | allowLock (r : Reading)
  | denied
  /-- `Allow` returned true and the attempt is under way. -/
  | admitted
  | reportRead (success : Bool)
  | reportLock (success : Bool) (r : Reading)
  | finished
  deriving DecidableEq, Repr

namespace Pc

def reading : Pc → Option Reading
  | allowLock r => some r
  | reportLock _ r => some r
  | _ => none

/-- Admitted, and not yet reported. -/
def outstanding : Pc → Bool
  | admitted => true
  | reportRead _ => true
  | reportLock _ _ => true
  | _ => false

def call (key : String) (first : Entries → String) (jitterSample : Config.Sample) :
    Pc → Option Call
  | allowLock r => some (.allow key r.2 first)
  | reportLock success r => some (.report key success r.2 jitterSample)
  | _ => none

/-- Where the call leaves the process. -/
def served (admits : Bool) : Pc → Pc
  | allowLock _ => if admits then admitted else denied
  | _ => finished

/-- Where a reading leaves the process. -/
def withReading (r : Reading) : Pc → Option Pc
  | allowRead => some (allowLock r)
  | reportRead success => some (reportLock success r)
  | _ => none

end Pc

/-- A caller and its key. -/
structure Proc where
  key : String
  pc : Pc
  deriving DecidableEq, Repr

/-- Any number of callers of one gate. `applied` has the readings that were
written to a key's entry, `lease` the attempt that was let through as probe. -/
structure Callers where
  gate : Gate
  clock : ℤ
  reads : ℕ
  procs : ℕ → Option Proc
  next : ℕ
  applied : String → List Reading
  lease : String → Option ℕ

inductive Action where
  | allow (key : String)
  | stray (key : String) (success : Bool)
  /-- The attempt of `p` ends and its caller calls `Report`. -/
  | outcome (p : ℕ) (success : Bool)
  | read (p : ℕ) (now : ℤ)
  | lock (p : ℕ) (first : Entries → String) (jitterSample : Config.Sample)
  | close

namespace Callers

def init (cfg : AcceptedConfig) (t₀ : ℤ) : Callers where
  gate := .new cfg
  clock := t₀
  reads := 0
  procs := fun _ => none
  next := 0
  applied := fun _ => []
  lease := fun _ => none

def setProc (s : Callers) (p : ℕ) (proc : Proc) : Callers :=
  { s with procs := update s.procs p (some proc) }

def spawn (s : Callers) (proc : Proc) : Callers :=
  { s.setProc s.next proc with next := s.next + 1 }

def leases (s : Callers) (k : String) (c : Call) : Bool :=
  s.gate.admits k c && ((s.gate.call c).keys.lookup k).any (·.state = .stateHalfOpen)

def serve (s : Callers) (p : ℕ) (key : String) (pc : Pc) (r : Reading) (c : Call) : Callers :=
  { s with
    gate := s.gate.call c
    procs := update s.procs p (some ⟨key, pc.served (s.gate.admits key c)⟩)
    -- a Report that finds no entry writes none
    applied := if ((s.gate.call c).keys.lookup key).isSome then
        update s.applied key (r :: s.applied key) else s.applied
    lease := if s.leases key c then update s.lease key (some p) else s.lease }

def runRead (s : Callers) (p : ℕ) (now : ℤ) : Option Callers :=
  if s.clock ≤ now then
    match s.procs p with
    | some ⟨key, pc⟩ =>
      (pc.withReading (s.reads, now)).map fun pc' =>
        { s.setProc p ⟨key, pc'⟩ with clock := now, reads := s.reads + 1 }
    | none => none
  else none

def runLock (s : Callers) (p : ℕ) (first : Entries → String) (jitterSample : Config.Sample) :
    Option Callers :=
  match s.procs p with
  | some ⟨key, pc⟩ =>
    match pc.reading, pc.call key first jitterSample with
    | some r, some c => some (s.serve p key pc r c)
    | _, _ => none
  | none => none

/-- One step, or `none` where the action is not possible. -/
def step (s : Callers) : Action → Option Callers
  | .allow key => some (s.spawn ⟨key, .allowRead⟩)
  | .stray key success => some (s.spawn ⟨key, .reportRead success⟩)
  | .outcome p success =>
    match s.procs p with
    | some ⟨key, .admitted⟩ => some (s.setProc p ⟨key, .reportRead success⟩)
    | _ => none
  | .read p now => s.runRead p now
  | .lock p first jitterSample => s.runLock p first jitterSample
  | .close => some { s with gate := s.gate.close }

/-! ## What a step can do -/

/-- A step is a call that moves one process to a pc without reading, a
reading, the lock-held part of a call, or `Close`. -/
inductive Move (s : Callers) : Action → Callers → Prop
  | called {key : String} : Move s (.allow key) (s.spawn ⟨key, .allowRead⟩)
  | strayed {key : String} {success : Bool} :
      Move s (.stray key success) (s.spawn ⟨key, .reportRead success⟩)
  | ended {p : ℕ} {key : String} {success : Bool} (hp : s.procs p = some ⟨key, .admitted⟩) :
      Move s (.outcome p success) (s.setProc p ⟨key, .reportRead success⟩)
  | readAllow {p : ℕ} {key : String} {now : ℤ} (hle : s.clock ≤ now)
      (hp : s.procs p = some ⟨key, .allowRead⟩) :
      Move s (.read p now)
        { s.setProc p ⟨key, .allowLock (s.reads, now)⟩ with clock := now, reads := s.reads + 1 }
  | readReport {p : ℕ} {key : String} {success : Bool} {now : ℤ} (hle : s.clock ≤ now)
      (hp : s.procs p = some ⟨key, .reportRead success⟩) :
      Move s (.read p now)
        { s.setProc p ⟨key, .reportLock success (s.reads, now)⟩ with
          clock := now, reads := s.reads + 1 }
  | allowed {p : ℕ} {key : String} {r : Reading} {first : Entries → String}
      {jitterSample : Config.Sample} (hp : s.procs p = some ⟨key, .allowLock r⟩) :
      Move s (.lock p first jitterSample)
        (s.serve p key (.allowLock r) r (.allow key r.2 first))
  | reported {p : ℕ} {key : String} {success : Bool} {r : Reading} {first : Entries → String}
      {jitterSample : Config.Sample} (hp : s.procs p = some ⟨key, .reportLock success r⟩) :
      Move s (.lock p first jitterSample)
        (s.serve p key (.reportLock success r) r (.report key success r.2 jitterSample))
  | closed : Move s .close { s with gate := s.gate.close }

theorem step_move {s s' : Callers} {a : Action} (h : s.step a = some s') : Move s a s' := by
  cases a with
  | allow key =>
    injection h with h
    exact h ▸ .called
  | stray key success =>
    injection h with h
    exact h ▸ .strayed
  | outcome p success =>
    rw [step] at h
    split at h
    next key hp =>
      injection h with h
      exact h ▸ .ended hp
    · exact nomatch h
  | read p now =>
    rw [step, runRead] at h
    split at h
    next hle =>
      split at h
      next key pc hp =>
        obtain ⟨pc', hpc, rfl⟩ := Option.map_eq_some_iff.mp h
        cases pc with
        | allowRead =>
          injection hpc with hpc
          exact hpc ▸ .readAllow hle hp
        | reportRead success =>
          injection hpc with hpc
          exact hpc ▸ .readReport hle hp
        | allowLock | denied | admitted | reportLock | finished => exact nomatch hpc
      · exact nomatch h
    · exact nomatch h
  | lock p first jitterSample =>
    rw [step, runLock] at h
    split at h
    next key pc hp =>
      cases pc with
      | allowLock r =>
        injection h with h
        exact h ▸ .allowed hp
      | reportLock success r =>
        injection h with h
        exact h ▸ .reported hp
      | allowRead | denied | admitted | reportRead | finished => exact nomatch h
    · exact nomatch h
  | close =>
    injection h with h
    exact h ▸ .closed

end Callers

/-! ## Settings for small runs -/

/-- One second cooldown, tripped by one failure. -/
def oneFailure : AcceptedConfig where
  failureRatio := 1 / 2
  tripFailures := 1
  baseCooldown := second
  maxCooldown := second
  jitter := 0
  ttl := 60 * second
  accepted := ⟨⟨1 / 2, 1, second, second, 0, 60 * second⟩, by decide +kernel⟩

/-- `rng.Float64()` returned zero; without jitter nobody looks. -/
def noJitter : Config.Sample := ⟨0, by decide, by decide⟩

/-- `dropOne` is never reached. -/
def anyKey : Entries → String := fun _ => ""

end MiddlewareUtils.BackendBackoff
