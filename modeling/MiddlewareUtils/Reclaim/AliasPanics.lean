import MiddlewareUtils.Reclaim.AliasMoves

/-!
# Deliveries that panic

`Alias` delivers with a comparison that always answers. Go's `==` on two
interface values does not: when both hold one dynamic type and that type is
a slice, a map, a func or a struct with such a field, it panics, and
`sameValue` ends in it. Here the lock-held functions of `alias.go` are
written once more as the sequences of writes they are, so that a panic leaves
what was written before it. Which two values `==` panics on is a parameter,
`raises`.

A panic runs up the stack of the goroutine. All lock-held functions but one
unlock the mutex with `defer`. The exception is the end of `expire`, which
takes the lock once more after Close to drop the names and unlocks on the
next line: a panic in between leaves the mutex locked (`held`), and whoever
needs it then waits for ever. What is above on the stack may recover: a
plugin boundary does, and the last lock of `expire` can be on the stack of an
Open whose context was done before it was bound. So the machine goes on after
a panic. The goroutine that panicked is finished, and its slot is left where
the panic found it (`halfEnded`).
-/

namespace MiddlewareUtils.Reclaim

variable {C : Type} [DecidableEq C] (raises : C → C → Bool)

/-- The comparison `sameValue` ends in panics. It is reached with two values
that are not nil and not both pointers, and a pointer and another value have
different types. -/
def sameValuePanics : Any C → Any C → Bool
  | .comparable left, .comparable right => raises left right
  | _, _ => false

/-- The loop of `storeWatchersLocked`: the watchers as it leaves them, and
whether it panicked. -/
def deliverAll (value : Any C) : List (AliasWatcher C) → List (AliasWatcher C) × Bool
  | [] => ([], false)
  | w :: ws =>
    if sameValuePanics raises w.last value then (w :: ws, true)
    else
      let (told, panicked) := deliverAll value ws
      (w.deliverLocked value :: told, panicked)

/-! ## Lock-held code -/

/-- Code that writes the names and may panic. -/
abbrev Delivering (C : Type) := EStateM Unit (AliasTable C)

namespace Delivering

def storeWatchersLocked (e : ℕ) (current : Any C) : Delivering C Unit := do
  let t ← get
  let x := t.entries e
  let value := if isNilValue current then x.empty else current
  let (watchers, panicked) := deliverAll raises value x.watchers
  set (t.setEntry e { x with watchers := watchers })
  if panicked then throw () else pure ()

def clearAliasLocked (e : ℕ) : Delivering C Unit := do
  modify (·.detachAliasLocked e)
  modify fun t => t.setEntry e { t.entries e with publisher := "", group := "" }
  let t ← get
  storeWatchersLocked raises e (t.entries e).empty

/-- The loop of `unbindIncarnationLocked` at one entry. -/
def unbindEntry (e : ℕ) : Delivering C Unit := do
  modify fun t =>
    t.setEntry e { t.entries e with incarnation := none, publisher := "", group := "" }
  let t ← get
  storeWatchersLocked raises e (t.entries e).empty

def unbindIncarnationLocked (i : ℕ) : Delivering C Unit := do
  let t ← get
  set { t with bound := Function.update t.bound i [] }
  (t.bound i).forM (unbindEntry raises)

/-- The loops of `SetAlias` and of `ClearPublisher` at one entry. -/
def clearIfHeld (current : Option ℕ) (publisher group : String) (e : ℕ) : Delivering C Unit := do
  let t ← get
  if some e = current ∨ (t.entries e).publisher ≠ publisher ∨ (t.entries e).group ≠ group then
    pure ()
  else clearAliasLocked raises e

def clearHeld (current : Option ℕ) (publisher group : String) (order : List ℕ) :
    Delivering C Unit :=
  order.forM (clearIfHeld raises current publisher group)

/-- `SetAlias` once it can no longer fail. -/
def publish (tbl : Table (Any C)) (i : ℕ) (name publisher group : String) (order : List ℕ) :
    Delivering C Unit := do
  let t ← get
  clearHeld raises (t.aliases name) publisher group order
  let t ← get
  let (t, e) := t.entryOf name .nil
  let t := t.rebind e i
  set (t.setEntry e { t.entries e with publisher := publisher, group := group })
  storeWatchersLocked raises e (tbl.slots i).current

def setAlias (tbl : Table (Any C)) (key name publisher group : String) (order : List ℕ) :
    Delivering C Unit := do
  let t ← get
  if name = "" ∨ key = "" then pure ()
  else
    match AliasTable.publishable tbl key with
    | none => pure ()
    | some i =>
      match t.rival name publisher with
      | some _ => pure ()
      | none => publish raises tbl i name publisher group order

def clearPublisher (publisher group : String) (order : List ℕ) : Delivering C Unit :=
  if publisher = "" ∨ group = "" then pure () else clearHeld raises none publisher group order

/-- What `takeAll` does to the names. -/
def forgetAll (slots : List ℕ) : Delivering C Unit := do
  slots.forM (unbindIncarnationLocked raises)
  modify fun t => { t with aliases := fun _ => none }

/-- What a process does to the names in its lock-held step at `pc`. -/
def endings (tbl : Table (Any C)) : Pc (Any C) → Delivering C Unit
  | .createFailed i _ | .panicked i _ _ | .unmapClosed i _ => unbindIncarnationLocked raises i
  | .takeAll => forgetAll raises tbl.mapped
  | _ => pure ()

end Delivering

/-! ## A step and its panic -/

/-- The table when the names of an ending panicked: `endBusySlot` and
`installCloser` have not touched the map yet and `unmapLocked` has, nobody has
closed `ready`, and `takeAll` has only swapped the map. -/
def Table.halfEnded {V : Type} (t : Table V) : Pc V → Table V
  | .createFailed i err => t.endWith i (some err)
  | .panicked i createErr _ => t.endWith i createErr
  | .unmapClosed i _ => t.unmapLocked i
  | .takeAll => { t with items := fun _ => none }
  | _ => t

/-- The goroutine of the process is gone. -/
def World.unwind {V : Type} (w : World V) (p : ℕ) : World V :=
  match w.procs p with
  | none => w
  | some ⟨caller, pc⟩ =>
    ({ w with table := w.table.halfEnded pc } : World V).setProc p caller .finished

/-- The step of a process takes `t.mu`. -/
def Proc.locks {V : Type} (t : Table V) : Proc V → Bool
  | ⟨caller, .dropWhenDone _⟩ =>
    -- Only a context without a `Done` channel needs `finishedAtBind`.
    match caller with
    | .opener _ _ pollsErr => pollsErr
    | _ => false
  | ⟨_, .slept i _⟩ => !((t.slots i).hooks.enforceCloseBeforeOpen && t.grace == 0)
  | ⟨_, pc⟩ =>
    match pc with
    | .lookup | .createErrOf _ | .publishPut .. | .createFailed .. | .publishWake _
    | .release .. | .claimDrop .. | .panicked .. | .claimExpire .. | .unmapClosed ..
    | .takeAll | .resetNext (_ :: _) => true
    | _ => false

namespace Aliased

def settle (s : Aliased C) : EStateM.Result Unit (AliasTable C) Unit → Aliased C × Bool
  | .ok _ names => ({ s with names := names }, false)
  | .error _ names => ({ s with names := names }, true)

def attemptTable (s : Aliased C) (a : Action (Any C)) : Option (Aliased C × Bool) :=
  (s.world.step a).map fun w =>
    match pcOf s.world a with
    | none => ({ s with world := w }, false)
    | some (p, pc) =>
      match Delivering.endings raises s.world.table pc s.names with
      | .ok _ names =>
        ({ s with world := w, names := names, disposing := s.noteDispose p pc }, false)
      | .error _ names => ({ s with world := s.world.unwind p, names := names }, true)

def attemptUnbind (s : Aliased C) (p : ℕ) : Option (Aliased C × Bool) :=
  match s.disposing p, s.world.procs p with
  | some i, some ⟨_, .finished⟩ =>
    some (({ s with disposing := Function.update s.disposing p none } : Aliased C).settle
      (Delivering.unbindIncarnationLocked raises i s.names))
  | _, _ => none

/-- A step, and whether it panicked. The first delivery to a watcher finds no
value to compare with, and `dropWatcher` delivers nothing. -/
def attempt (s : Aliased C) : AliasAction C → Option (Aliased C × Bool)
  | .table a => s.attemptTable raises a
  | .setAlias key name publisher group order =>
    if order.isPerm s.names.named then
      some (s.settle
        (Delivering.setAlias raises s.world.table key name publisher group order s.names))
    else none
  | .clearPublisher publisher group order =>
    if order.isPerm s.names.named then
      some (s.settle (Delivering.clearPublisher raises publisher group order s.names))
    else none
  | .unbind p => s.attemptUnbind raises p
  | a => (s.step a).map fun s' => (s', false)

/-- The step takes `t.mu`. -/
def locks (s : Aliased C) : AliasAction C → Bool
  | .table (.run p _) => (s.world.procs p).any (·.locks s.world.table)
  | .table _ => false
  | .setAlias key name _ _ _ => name ≠ "" && key ≠ ""
  | .watch _ name _ _ => name ≠ ""
  | .dropWatcher _ => true
  | .clearPublisher publisher group _ => publisher ≠ "" && group ≠ ""
  | .unbind _ => true

end Aliased

/-! ## The table and its mutex -/

/-- The table, with panics of comparisons and callbacks. -/
structure Guarded (C : Type) where
  aliased : Aliased C
  /-- A panic has left `t.mu` locked. -/
  held : Bool
  /-- How many steps have panicked. -/
  panics : ℕ

namespace Guarded

def init (grace : ℤ) : Guarded C := ⟨.init grace, false, 0⟩

/-- The unlock of the step is not deferred. -/
def plainUnlock : AliasAction C → Bool
  | .unbind _ => true
  | _ => false

def step (s : Guarded C) (a : AliasAction C) : Option (Guarded C) :=
  if s.held = true ∧ s.aliased.locks a = true then none
  else
    (s.aliased.attempt raises a).map fun (aliased, panicked) =>
      ⟨aliased, s.held || (panicked && plainUnlock a),
        if panicked then s.panics + 1 else s.panics⟩

end Guarded

end MiddlewareUtils.Reclaim
