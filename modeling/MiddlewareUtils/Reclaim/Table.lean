import Mathlib.Logic.Function.Basic
import Mathlib.Data.List.Range

/-!
# The reclaim table and its lock-held functions

`reclaim/table.go`, one definition for each function that takes `t.mu`.
Such a function is one atomic step of the machine in `Reclaim.Machine`; the
hooks run between the steps.

A slot is a pointer in Go and outlives its place in the map, so slots live
in `slots` under an id and `items` maps a key to an id. A slot also carries
its key, which Go passes along beside the pointer. A channel is an id with
the number of times it was closed. `finished` is true while the channel
exists and is open: `closeFinished` closes it and forgets it in one step.
A grace timer is an id with its slot, the time it is due and whether its
callback was started or stopped in time; `Timer.Stop` on a started callback
does nothing, as in Go.

The hooks a slot stores are written once, by `publishPut`. Go hands copies
of them along; reading them off the slot gives the same hooks. An
incarnation's alias list is no part of its slot here: nothing in the table
reads it, and `Reclaim.Alias` keeps it beside the slots.
-/

namespace MiddlewareUtils.Reclaim

open Function

def defaultGrace : ℕ := 10000000000

structure Hooks where
  sleep : Bool
  wake : Bool
  close : Bool
  enforceCloseBeforeOpen : Bool
  deriving DecidableEq, Repr

/-- The zero `Hooks`. -/
def Hooks.none : Hooks := ⟨false, false, false, false⟩

inductive SlotState where
  | busy
  | awake
  | asleep
  | gone
  deriving DecidableEq, Repr

/-- `State`, as a Peek answers it; busy is never one. -/
inductive PeekState where
  | awake
  | asleep
  deriving DecidableEq, Repr

inductive OpenError where
  /-- What create returned. -/
  | create (err : String)
  | createPanic (key recovered : String)
  | wakePanic (key recovered : String)
  /-- `ctx.Err()` at bind. -/
  | context (err : String)
  deriving DecidableEq, Repr

def OpenError.text : OpenError → String
  | create err => err
  | createPanic key r => "reclaim: create " ++ key.quote ++ ": panic: " ++ r
  | wakePanic key r => "reclaim: wake " ++ key.quote ++ ": panic: " ++ r
  | context err => err

structure Slot (V : Type) where
  key : String
  value : Option V
  hooks : Hooks
  createErr : Option OpenError
  state : SlotState
  holders : ℤ
  ready : ℕ
  graceTimer : Option ℕ
  finished : Bool

inductive TimerStatus where
  | armed
  | started
  | stopped
  deriving DecidableEq, Repr

structure GraceTimer where
  slot : ℕ
  due : ℕ
  status : TimerStatus
  deriving DecidableEq, Repr

/-- `Table`. Slots, channels and timers are numbered as they are made. -/
structure Table (V : Type) where
  grace : ℕ
  items : String → Option ℕ
  slots : ℕ → Slot V
  nextSlot : ℕ
  chans : ℕ → ℕ
  nextChan : ℕ
  timers : ℕ → GraceTimer
  nextTimer : ℕ

namespace Table

variable {V : Type}

/-- A slot nobody has made yet. -/
def noSlot : Slot V := ⟨"", none, Hooks.none, none, .gone, 0, 0, none, false⟩

def new (grace : ℤ) : Table V where
  grace := if grace < 0 then defaultGrace else grace.toNat
  items := fun _ => none
  slots := fun _ => noSlot
  nextSlot := 0
  chans := fun _ => 0
  nextChan := 0
  timers := fun _ => ⟨0, 0, .stopped⟩
  nextTimer := 0

def setSlot (t : Table V) (i : ℕ) (s : Slot V) : Table V :=
  { t with slots := update t.slots i s }

/-- `if t.items[key] == incarnation { delete(t.items, key) }`. -/
def unmap (t : Table V) (i : ℕ) : Table V :=
  if t.items (t.slots i).key = some i then
    { t with items := update t.items (t.slots i).key none }
  else t

def closeChan (t : Table V) (c : ℕ) : Table V :=
  { t with chans := update t.chans c (t.chans c + 1) }

/-- `graceTimer.Stop()`. -/
def stopTimer (t : Table V) : Option ℕ → Table V
  | none => t
  | some id =>
    if (t.timers id).status = .armed then
      { t with timers := update t.timers id { t.timers id with status := .stopped } }
    else t

inductive OpenStep where
  | create (i : ℕ)
  | bind (i : ℕ)
  | wake (i : ℕ)
  | park (i ready : ℕ)
  | retry
  deriving DecidableEq, Repr

/-- A slot registered before its create runs. -/
def registered (key : String) (ready : ℕ) : Slot V :=
  ⟨key, none, Hooks.none, none, .busy, 0, ready, none, true⟩

def register (t : Table V) (key : String) : Table V :=
  { t with
    slots := update t.slots t.nextSlot (registered key t.nextChan)
    items := update t.items key (some t.nextSlot)
    nextSlot := t.nextSlot + 1
    nextChan := t.nextChan + 1 }

/-- `incarnation.holders++`. -/
def hold (t : Table V) (i : ℕ) : Table V :=
  t.setSlot i { t.slots i with holders := (t.slots i).holders + 1 }

/-- `incarnation.state = slotBusy` with a fresh `ready`. -/
def enterBusy (t : Table V) (i : ℕ) : Table V :=
  { t.setSlot i { t.slots i with state := .busy, ready := t.nextChan } with
    nextChan := t.nextChan + 1 }

/-- An Open takes a sleeping slot back. -/
def reclaim (t : Table V) (i : ℕ) : Table V :=
  { (t.stopTimer (t.slots i).graceTimer).setSlot i { t.slots i with
        state := .busy
        ready := t.nextChan
        graceTimer := none
        holders := (t.slots i).holders + 1 } with
    nextChan := t.nextChan + 1 }

/-- `delete(t.items, key)`. -/
def forget (t : Table V) (key : String) : Table V :=
  { t with items := update t.items key none }

def lookupOpen (t : Table V) (key : String) : Table V × OpenStep :=
  match t.items key with
  | none => (t.register key, .create t.nextSlot)
  | some i =>
    match (t.slots i).state with
    | .awake => (t.hold i, .bind i)
    | .asleep => (t.reclaim i, .wake i)
    | .busy => (t, .park i (t.slots i).ready)
    | .gone => (t.forget key, .retry)

/-- `incarnation.createErr = createErr` and the slot ends. -/
def endWith (t : Table V) (i : ℕ) (createErr : Option OpenError) : Table V :=
  t.setSlot i { t.slots i with createErr := createErr, state := .gone, finished := false }

def endBusySlot (t : Table V) (i : ℕ) (createErr : Option OpenError) : Table V :=
  ((t.endWith i createErr).unmap i).closeChan (t.slots i).ready

/-- `incarnation.state = slotGone` and `closeFinished`. -/
def endSlot (t : Table V) (i : ℕ) : Table V :=
  t.setSlot i { t.slots i with state := .gone, finished := false }

/-- `unmapLocked`; the caller closes the slot's `ready`. -/
def unmapLocked (t : Table V) (i : ℕ) : Table V := (t.unmap i).endSlot i

/-- The placeholder that keeps a key taken while Close runs. -/
def closer (key : String) (ready : ℕ) : Slot V :=
  ⟨key, none, Hooks.none, none, .busy, 0, ready, none, false⟩

/-- `installCloser`; the closer is the table's next slot. -/
def installCloser (t : Table V) (i : ℕ) (createErr : Option OpenError) : Table V :=
  let key := (t.slots i).key
  let t' := t.endWith i createErr
  { t' with
    slots := update t'.slots t.nextSlot (closer key t.nextChan)
    items := update t.items key (some t.nextSlot)
    nextSlot := t.nextSlot + 1
    nextChan := t.nextChan + 1 }

def publishPut (t : Table V) (i : ℕ) (value : V) (hooks : Hooks) : Table V :=
  let s := t.slots i
  { (t.setSlot i { s with
        value := some value
        hooks := hooks
        state := .awake
        holders := s.holders + 1 }).closeChan s.ready with
    items := update t.items s.key (some i) }

def publishWake (t : Table V) (i : ℕ) : Table V :=
  (t.setSlot i { t.slots i with state := .awake }).closeChan (t.slots i).ready

def releaseHolder (t : Table V) (i : ℕ) : Table V :=
  t.setSlot i { t.slots i with holders := (t.slots i).holders - 1 }

inductive DropStep where
  | park (ready : ℕ)
  | stop
  | claim
  deriving DecidableEq, Repr

/-- What a drop does next: wait, nothing, or put the value to sleep. -/
def claimDrop (t : Table V) (i : ℕ) : Table V × DropStep :=
  let s := t.slots i
  if s.state = .busy then (t, .park s.ready)
  else if s.holders = 0 ∧ s.state = .awake then (t.enterBusy i, .claim)
  else (t, .stop)

/-- `incarnation.state = slotAsleep`, with `ready` closed. -/
def settleAsleep (t : Table V) (i : ℕ) : Table V :=
  (t.setSlot i { t.slots i with state := .asleep }).closeChan (t.slots i).ready

/-- `time.AfterFunc(grace, …)` at time `now`. -/
def armGrace (t : Table V) (i now : ℕ) : Table V :=
  { t.setSlot i { t.slots i with graceTimer := some t.nextTimer } with
    timers := update t.timers t.nextTimer ⟨i, now + t.grace, .armed⟩
    nextTimer := t.nextTimer + 1 }

/-- `parkAsleep` at time `now`; true when the slot is mapped and waits for
its grace to end. -/
def parkAsleep (t : Table V) (i now : ℕ) : Table V × Bool :=
  let key := (t.slots i).key
  if t.items key ≠ some i then (t.settleAsleep i, false)
  else if t.grace = 0 then ((t.settleAsleep i).forget key, false)
  else ((t.settleAsleep i).armGrace i now, true)

inductive ExpireStep where
  | skip
  | enforce
  | dispose
  deriving DecidableEq, Repr

/-- What the end of grace does: nothing, close in place, or unmap and dispose. -/
def claimExpire (t : Table V) (i : ℕ) : Table V × ExpireStep :=
  let s := t.slots i
  if s.state = .asleep ∧ s.holders = 0 then
    if s.hooks.enforceCloseBeforeOpen then (t.enterBusy i, .enforce)
    else ((t.endSlot i).unmap i, .dispose)
  else (t, .skip)

/-- `Peek`: what is kept under the key, and whether it is awake. -/
def peek (t : Table V) (key : String) : Option (Option V × PeekState) :=
  match t.items key with
  | none => none
  | some i =>
    match (t.slots i).state with
    | .awake => some ((t.slots i).value, .awake)
    | .asleep => some ((t.slots i).value, .asleep)
    | .busy | .gone => none

/-- The slots the map holds. -/
def mapped (t : Table V) : List ℕ :=
  (List.range t.nextSlot).filter fun i => t.items (t.slots i).key = some i

def takeAll (t : Table V) : Table V :=
  { t with
    items := fun _ => none
    slots := fun i => if i ∈ t.mapped then { t.slots i with graceTimer := none } else t.slots i
    timers := fun id =>
      if (t.timers id).status = .armed ∧ ∃ i ∈ t.mapped, (t.slots i).graceTimer = some id then
        { t.timers id with status := .stopped }
      else t.timers id }

/-- `endResetSlot`; what Reset does next depends on the state it found. -/
def endResetSlot (t : Table V) (i : ℕ) : Table V :=
  let s := t.slots i
  if s.state = .awake ∨ s.state = .asleep then t.endSlot i else t

/-! ## Functions that touch one slot -/

structure Touches (t : Table V) (i : ℕ) (s : Slot V) (t' : Table V) : Prop where
  slots : t'.slots = update t.slots i s
  nextSlot : t'.nextSlot = t.nextSlot
  grace : t'.grace = t.grace

section Touches

variable (t : Table V) (i : ℕ)

theorem slots_unmap : (t.unmap i).slots = t.slots := by
  unfold unmap
  split <;> rfl

theorem slots_stopTimer (o : Option ℕ) : (t.stopTimer o).slots = t.slots := by
  unfold stopTimer
  split
  · rfl
  · split <;> rfl

theorem nextSlot_stopTimer (o : Option ℕ) : (t.stopTimer o).nextSlot = t.nextSlot := by
  unfold stopTimer
  split
  · rfl
  · split <;> rfl

theorem grace_stopTimer (o : Option ℕ) : (t.stopTimer o).grace = t.grace := by
  unfold stopTimer
  split
  · rfl
  · split <;> rfl

theorem items_stopTimer (o : Option ℕ) : (t.stopTimer o).items = t.items := by
  unfold stopTimer
  split
  · rfl
  · split <;> rfl

variable {t i} in
theorem Touches.unmap {s : Slot V} {t' : Table V} (h : t.Touches i s t') (j : ℕ) :
    t.Touches i s (t'.unmap j) := by
  unfold Table.unmap
  split
  · exact ⟨h.slots, h.nextSlot, h.grace⟩
  · exact h

theorem touches_self : t.Touches i (t.slots i) t :=
  ⟨(update_eq_self i t.slots).symm, rfl, rfl⟩

theorem touches_closeChan (c : ℕ) : t.Touches i (t.slots i) (t.closeChan c) :=
  ⟨(update_eq_self i t.slots).symm, rfl, rfl⟩

theorem touches_forget (key : String) : t.Touches i (t.slots i) (t.forget key) :=
  ⟨(update_eq_self i t.slots).symm, rfl, rfl⟩

theorem touches_hold :
    t.Touches i { t.slots i with holders := (t.slots i).holders + 1 } (t.hold i) :=
  ⟨rfl, rfl, rfl⟩

theorem touches_enterBusy :
    t.Touches i { t.slots i with state := .busy, ready := t.nextChan } (t.enterBusy i) :=
  ⟨rfl, rfl, rfl⟩

theorem touches_reclaim :
    t.Touches i { t.slots i with
      state := .busy
      ready := t.nextChan
      graceTimer := none
      holders := (t.slots i).holders + 1 } (t.reclaim i) := by
  refine ⟨?_, t.nextSlot_stopTimer _, t.grace_stopTimer _⟩
  show update (t.stopTimer _).slots _ _ = _
  rw [slots_stopTimer]

theorem touches_endSlot :
    t.Touches i { t.slots i with state := .gone, finished := false } (t.endSlot i) :=
  ⟨rfl, rfl, rfl⟩

theorem touches_endWith (createErr : Option OpenError) :
    t.Touches i { t.slots i with createErr := createErr, state := .gone, finished := false }
      (t.endWith i createErr) :=
  ⟨rfl, rfl, rfl⟩

theorem touches_endBusySlot (createErr : Option OpenError) :
    t.Touches i { t.slots i with createErr := createErr, state := .gone, finished := false }
      (t.endBusySlot i createErr) := by
  have h := (t.touches_endWith i createErr).unmap i
  exact ⟨h.slots, h.nextSlot, h.grace⟩

theorem touches_unmapLocked :
    t.Touches i { t.slots i with state := .gone, finished := false } (t.unmapLocked i) := by
  have h := (t.touches_self i).unmap i
  have hs : (t.unmap i).slots = t.slots := t.slots_unmap i
  refine ⟨?_, h.nextSlot, h.grace⟩
  show update (t.unmap i).slots i _ = _
  rw [hs]

theorem touches_publishPut (value : V) (hooks : Hooks) :
    t.Touches i { t.slots i with
      value := some value
      hooks := hooks
      state := .awake
      holders := (t.slots i).holders + 1 } (t.publishPut i value hooks) :=
  ⟨rfl, rfl, rfl⟩

theorem touches_publishWake :
    t.Touches i { t.slots i with state := .awake } (t.publishWake i) :=
  ⟨rfl, rfl, rfl⟩

theorem touches_releaseHolder :
    t.Touches i { t.slots i with holders := (t.slots i).holders - 1 } (t.releaseHolder i) :=
  ⟨rfl, rfl, rfl⟩

theorem touches_settleAsleep :
    t.Touches i { t.slots i with state := .asleep } (t.settleAsleep i) :=
  ⟨rfl, rfl, rfl⟩

theorem touches_armGrace (now : ℕ) :
    t.Touches i { t.slots i with state := .asleep, graceTimer := some t.nextTimer }
      ((t.settleAsleep i).armGrace i now) := by
  refine ⟨?_, rfl, rfl⟩
  show update (update t.slots i _) i _ = _
  rw [update_idem]
  show update t.slots i { update t.slots i _ i with graceTimer := _ } = _
  rw [update_self]
  rfl

end Touches

end Table

end MiddlewareUtils.Reclaim
