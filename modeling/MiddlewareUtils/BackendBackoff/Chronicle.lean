import MiddlewareUtils.Lib.Run
import MiddlewareUtils.BackendBackoff.Gate

/-!
# The chronicle of one key

What an entry holds is the result of everything that happened to its key,
and most of that can no longer be read off the entry. Here a gate runs with
one key watched: `log` is what happened to it, the latest first, and nothing
the gate does depends on it. Creating the key starts the log over. Reports
are entered as far as they count: on a CLOSED key with their outcome, on a
HALF-OPEN one as the probe that closed it or failed. An Allow leaves nothing
but the creation.

Calls come one after another in the order they take the lock, with any
readings. `clock` is the reading of the last call on the key.

`EntryMove` says once what a call can do to an entry and to the log; it is
the only place the branches of `Allow` and `Report` are taken apart for the
statements about whole histories.
-/

namespace MiddlewareUtils.BackendBackoff

open Lib

/-- What matters to the credit of a key. -/
inductive Event where
  | created (t : ℤ)
  /-- A Report on the HALF-OPEN key succeeded. -/
  | closed (t : ℤ)
  /-- A Report on the CLOSED key. -/
  | reported (success : Bool)
  /-- The key had been CLOSED since `since` and became OPEN. -/
  | tripped (since t : ℤ)
  /-- A Report on the HALF-OPEN key failed. -/
  | failed (t : ℤ)
  deriving DecidableEq, Repr

/-- When the key was created or last closed. -/
def closedAt : List Event → ℤ
  | [] => 0
  | .created t :: _ => t
  | .closed t :: _ => t
  | .reported _ :: log => closedAt log
  | .tripped _ _ :: log => closedAt log
  | .failed _ :: log => closedAt log

/-- The Reports since then, in the order they came. -/
def outcomes : List Event → List Bool
  | [] => []
  | .created _ :: _ => []
  | .closed _ :: _ => []
  | .reported success :: log => outcomes log ++ [success]
  | .tripped _ _ :: log => outcomes log
  | .failed _ :: log => outcomes log

namespace MemEntry

def noteReport (success : Bool) (now : ℤ) (left : GateState) (log : List Event) (e : MemEntry) :
    List Event :=
  match e.state with
  | .stateOpen => log
  | .stateHalfOpen =>
    if e.probeOutstanding then (if success then .closed now else .failed now) :: log else log
  | .stateClosed =>
    if left = .stateOpen then .tripped (closedAt log) now :: .reported success :: log
    else .reported success :: log

end MemEntry

/-- A gate with the log of one key. -/
structure Chronicle where
  gate : Gate
  clock : ℤ
  log : List Event

namespace Chronicle

def init (cfg : AcceptedConfig) (t₀ : ℤ) : Chronicle := ⟨.new cfg, t₀, []⟩

/-- The log after a call. -/
def note (k : String) (s : Chronicle) : Call → List Event
  | .allow key now _ =>
    if key = k ∧ s.gate.closed = false ∧ (s.gate.keys.lookup k).all (!Gate.live now ·) then
      [.created now]
    else s.log
  | .report key success now jitterSample =>
    if key = k ∧ s.gate.closed = false then
      match s.gate.keys.lookup k with
      | some e =>
        e.noteReport success now ((e.touch s.gate.cfg now).report s.gate.cfg s.gate.budget now
          success jitterSample).state s.log
      | none => s.log
    else s.log
  | .close => s.log

def reading (k : String) (s : Chronicle) (c : Call) : ℤ :=
  if c.key? = some k then c.now?.getD s.clock else s.clock

def step (k : String) (s : Chronicle) (c : Call) : Option Chronicle :=
  some ⟨s.gate.call c, s.reading k c, s.note k c⟩

end Chronicle

/-! ## What a call does -/

/-- An entry, its `expireAt` moved on already, under a call that reads `now`. -/
inductive EntryMove (cfg : Config) (budget : ℚ) (now : ℤ) (e : MemEntry) (log : List Event) :
    MemEntry → List Event → Prop
  /-- A denied Allow, or a Report that does not count. -/
  | ignored : EntryMove cfg budget now e log e log
  /-- An Allow while CLOSED. -/
  | passed (hstate : e.state = .stateClosed) :
      EntryMove cfg budget now e log (e.resetNIfClosedLongEnough cfg now) log
  | leased (hstate : e.state ≠ .stateClosed) :
      EntryMove cfg budget now e log (e.lease cfg now) log
  | closed (hstate : e.state = .stateHalfOpen) (hprobe : e.probeOutstanding = true) :
      EntryMove cfg budget now e log
        { e with
          probeOutstanding := false, credit := budget, state := .stateClosed, closedSince := now }
        (.closed now :: log)
  | failed {jitterSample : Config.Sample} (hstate : e.state = .stateHalfOpen)
      (hprobe : e.probeOutstanding = true) :
      EntryMove cfg budget now e log
        { e with
          probeOutstanding := false
          n := e.n + 1
          state := .stateOpen
          openUntil := now + cfg.cooldownDuration (e.n + 1) jitterSample }
        (.failed now :: log)
  | succeeded (hstate : e.state = .stateClosed) :
      EntryMove cfg budget now e log
        { e with credit := min budget (e.credit + cfg.successCredit) }
        (.reported true :: log)
  | counted (hstate : e.state = .stateClosed) (hcredit : 0 < e.credit - 1) :
      EntryMove cfg budget now e log
        { e.resetNIfClosedLongEnough cfg now with credit := e.credit - 1 }
        (.reported false :: log)
  | tripped {jitterSample : Config.Sample} (hstate : e.state = .stateClosed)
      (hcredit : e.credit - 1 ≤ 0) :
      EntryMove cfg budget now e log
        { e.resetNIfClosedLongEnough cfg now with
          credit := e.credit - 1
          state := .stateOpen
          openUntil := now +
            cfg.cooldownDuration (e.resetNIfClosedLongEnough cfg now).n jitterSample
          closedSince := 0 }
        (.tripped (closedAt log) now :: .reported false :: log)

namespace MemEntry

variable {cfg : Config} {budget : ℚ} {now : ℤ} {e : MemEntry} {log : List Event}

theorem reset_credit : (e.resetNIfClosedLongEnough cfg now).credit = e.credit := by
  unfold resetNIfClosedLongEnough
  split
  · rfl
  · split <;> rfl

theorem reset_closedSince :
    (e.resetNIfClosedLongEnough cfg now).closedSince = e.closedSince := by
  unfold resetNIfClosedLongEnough
  split
  · rfl
  · split <;> rfl

theorem reset_probeOutstanding :
    (e.resetNIfClosedLongEnough cfg now).probeOutstanding = e.probeOutstanding := by
  unfold resetNIfClosedLongEnough
  split
  · rfl
  · split <;> rfl

theorem reset_fresh :
    ((fresh budget now).touch cfg now).resetNIfClosedLongEnough cfg now =
      (fresh budget now).touch cfg now := by
  unfold resetNIfClosedLongEnough
  split
  · rfl
  · split <;> rfl

theorem allow_move : EntryMove cfg budget now e log (e.allow cfg now).1 log := by
  unfold allow
  cases hstate : e.state with
  | stateClosed => exact .passed hstate
  | stateOpen =>
    dsimp only
    split
    · exact .ignored
    · exact .leased (by rw [hstate]; nofun)
  | stateHalfOpen =>
    dsimp only
    split
    · exact .ignored
    · exact .leased (by rw [hstate]; nofun)

theorem report_move {success : Bool} {jitterSample : Config.Sample} :
    EntryMove cfg budget now e log (e.report cfg budget now success jitterSample)
      (e.noteReport success now (e.report cfg budget now success jitterSample).state log) := by
  unfold report noteReport
  cases hstate : e.state with
  | stateOpen => exact .ignored
  | stateHalfOpen =>
    dsimp only
    cases hprobe : e.probeOutstanding with
    | false => exact .ignored
    | true =>
      rw [if_neg (by decide), if_pos rfl]
      cases success with
      | true => exact .closed hstate hprobe
      | false => exact .failed hstate hprobe
  | stateClosed =>
    dsimp only
    cases success with
    | true =>
      have hcap : (if e.credit + cfg.successCredit > budget then budget
          else e.credit + cfg.successCredit) = min budget (e.credit + cfg.successCredit) := by
        split
        next hgt => rw [min_eq_left hgt.le]
        next hle => rw [min_eq_right (not_lt.mp hle)]
      have hmove := @EntryMove.succeeded cfg budget now e log hstate
      rw [hstate] at hmove
      rw [if_pos rfl, hcap, if_neg nofun]
      exact hmove
    | false =>
      rw [if_neg (by decide), reset_credit]
      by_cases hcredit : e.credit - 1 ≤ 0
      · rw [if_pos hcredit, if_pos rfl]
        exact .tripped hstate hcredit
      · rw [if_neg hcredit]
        dsimp only
        rw [reset_state, hstate, if_neg (by decide)]
        have hmove := @EntryMove.counted cfg budget now e log hstate (not_le.mp hcredit)
        dsimp only at hmove
        rw [reset_state, hstate] at hmove
        exact hmove

end MemEntry

inductive KeyStep (cfg : Config) (budget : ℚ) (k : String) (c : Call) :
    Option MemEntry → List Event → Option MemEntry → List Event → Prop
  | kept {e : Option MemEntry} {log : List Event} : KeyStep cfg budget k c e log e log
  | dropped {e : Option MemEntry} {log : List Event} : KeyStep cfg budget k c e log none log
  | created {now : ℤ} {e : Option MemEntry} {log : List Event} (hkey : c.key? = some k)
      (hnow : c.now? = some now) :
      KeyStep cfg budget k c e log (some ((MemEntry.fresh budget now).touch cfg now))
        [.created now]
  | worked {now : ℤ} {e e' : MemEntry} {log log' : List Event} (hkey : c.key? = some k)
      (hnow : c.now? = some now)
      (hmove : EntryMove cfg budget now (e.touch cfg now) log e' log') :
      KeyStep cfg budget k c (some e) log (some e') log'

namespace Gate

variable {g : Gate} {k : String}

theorem call_budget (g : Gate) (c : Call) : (g.call c).budget = g.budget := by
  cases c with
  | allow key now first =>
    unfold call allow
    dsimp only
    split <;> rfl
  | report key success now jitterSample =>
    unfold call report
    dsimp only
    split
    · rfl
    · split <;> rfl
  | close => rfl

end Gate

namespace Chronicle

variable {k : String} {s s' : Chronicle} {c : Call}

theorem allow_keyStep (key : String) (now : ℤ) (first : Entries → String) :
    KeyStep s.gate.cfg s.gate.budget k (.allow key now first) (s.gate.keys.lookup k) s.log
      ((s.gate.call (.allow key now first)).keys.lookup k)
      (s.note k (.allow key now first)) := by
  unfold Gate.call Gate.allow note
  cases hclosed : s.gate.closed with
  | true => simpa using KeyStep.kept
  | false =>
    dsimp only
    rw [if_neg Bool.false_ne_true]
    by_cases hk : key = k
    · subst hk
      dsimp only
      rw [AList.lookup_insert]
      rcases s.gate.loadEntry_entry first key now with ⟨hfound, hlive⟩ | ⟨hfresh, hgone⟩
      · have hall : (s.gate.keys.lookup key).all (!Gate.live now ·) = false := by
          rw [hfound, Option.all_some, Gate.live, decide_eq_true hlive, Bool.not_true]
        rw [hall, if_neg (by simp), hfound]
        exact .worked rfl rfl MemEntry.allow_move
      · have hall : (s.gate.keys.lookup key).all (!Gate.live now ·) = true := by
          cases hfound : s.gate.keys.lookup key with
          | none => rfl
          | some e =>
            have hle := hgone e hfound
            rw [Option.all_some, Gate.live, decide_eq_false (by omega), Bool.not_false]
        rw [hall, if_pos ⟨rfl, rfl, rfl⟩, hfresh]
        have hnew : (((MemEntry.fresh s.gate.budget now).touch s.gate.cfg now).allow
            s.gate.cfg now).1 = (MemEntry.fresh s.gate.budget now).touch s.gate.cfg now :=
          MemEntry.reset_fresh
        rw [hnew]
        exact .created rfl rfl
    · rw [if_neg fun h => hk h.1]
      dsimp only
      rw [AList.lookup_insert_ne (Ne.symm hk)]
      cases hafter : (s.gate.loadEntry first key now).2.lookup k with
      | none => exact .dropped
      | some e =>
        rw [← Gate.loadEntry_other (Ne.symm hk) hafter]
        exact .kept

theorem report_keyStep (key : String) (success : Bool) (now : ℤ) (jitterSample : Config.Sample) :
    KeyStep s.gate.cfg s.gate.budget k (.report key success now jitterSample)
      (s.gate.keys.lookup k) s.log
      ((s.gate.call (.report key success now jitterSample)).keys.lookup k)
      (s.note k (.report key success now jitterSample)) := by
  unfold Gate.call Gate.report note
  cases hclosed : s.gate.closed with
  | true => simpa using KeyStep.kept
  | false =>
    dsimp only
    rw [if_neg Bool.false_ne_true]
    by_cases hk : key = k
    · subst hk
      rw [if_pos ⟨rfl, rfl⟩]
      cases hfound : s.gate.keys.lookup key with
      | none =>
        dsimp only
        rw [hfound]
        exact .kept
      | some e =>
        dsimp only
        rw [AList.lookup_insert]
        exact .worked rfl rfl MemEntry.report_move
    · rw [if_neg fun h => hk h.1]
      cases s.gate.keys.lookup key with
      | none => exact .kept
      | some e =>
        dsimp only
        rw [AList.lookup_insert_ne (Ne.symm hk)]
        exact .kept

theorem step_keyStep (h : s.step k c = some s') :
    KeyStep s.gate.cfg s.gate.budget k c (s.gate.keys.lookup k) s.log
      (s'.gate.keys.lookup k) s'.log := by
  injection h with h
  subst h
  cases c with
  | allow key now first => exact allow_keyStep key now first
  | report key success now jitterSample => exact report_keyStep key success now jitterSample
  | close => exact .dropped

theorem step_settings (h : s.step k c = some s') :
    s'.gate.cfg = s.gate.cfg ∧ s'.gate.budget = s.gate.budget ∧ s'.clock = s.reading k c := by
  injection h with h
  subst h
  exact ⟨s.gate.call_cfg c, s.gate.call_budget c, rfl⟩

end Chronicle

end MiddlewareUtils.BackendBackoff
