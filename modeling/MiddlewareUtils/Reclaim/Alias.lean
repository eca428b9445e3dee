import MiddlewareUtils.Reclaim.Machine

/-!
# Public names for mapped keys

`reclaim/alias.go`, over the machine of `Reclaim.Machine`. An alias entry is
a public name. It points at the incarnation published under it, if any, and
an incarnation keeps the list of the entries that point at it, so that its
ending can let go of them. Watchers of a name are told its published value
whenever that value changes.

Entries and incarnations are pointers in Go; here they are ids. An entry
also carries its name, under which the map holds it. A watcher is a record
in the list of its entry with an id for the pointer `dropWatcher` compares;
`calls` remembers what its callback was called with, and what each call
panicked with. Go ranges over a map in an order of its own, so the two
loops over all entries take that order as an argument.

None of this writes a slot or the key map, so the table's machine runs
underneath unchanged: `Aliased.step` takes a step of it and adds what the
step does to the names. An ending drops the aliases in its own lock-held
step, except for `expire` without the close-before-open order. That one
gives up the key first, runs Close, and takes the lock once more to drop the
aliases (`unbind`); in between the names still point at the closed
incarnation.
-/

namespace MiddlewareUtils.Reclaim

open Function

/-- What an interface holds. A pointer is its address, which is all that is
ever read of it; `comparable` is any other value, with Go's `==`. -/
inductive Any (C : Type) where
  | nil
  /-- A nil pointer of some type. -/
  | typedNil
  | pointer (address : ℕ)
  | comparable (value : C)
  deriving DecidableEq, Repr

variable {C : Type} [DecidableEq C]

def isNilValue : Any C → Bool
  | .nil | .typedNil => true
  | .pointer _ | .comparable _ => false

def sameValue (left right : Any C) : Bool :=
  if isNilValue left ∧ isNilValue right then true
  else if isNilValue left ∨ isNilValue right then false
  else
    match left, right with
    | .pointer a, .pointer b => a = b
    | left, right => left = right

/-- A slot's `value`; nil until put. -/
def Slot.current (s : Slot (Any C)) : Any C := s.value.getD .nil

/-- A callback, by what its `n`-th call panics with; `none` when it returns. -/
abbrev Callback := ℕ → Option String

/-- A watcher, the last value it was told and the calls of its callback. -/
structure AliasWatcher (C : Type) where
  id : ℕ
  changed : Option Callback
  last : Any C
  calls : List (Any C × Option String)

structure AliasEntry (C : Type) where
  name : String
  incarnation : Option ℕ
  publisher : String
  group : String
  empty : Any C
  watchers : List (AliasWatcher C)

inductive AliasError where
  | noMappedKey (name key : String)
  | held (name holder publisher : String)
  deriving DecidableEq, Repr

def AliasError.text : AliasError → String
  | noMappedKey name key => "reclaim alias " ++ name.quote ++ " has no mapped key " ++ key.quote
  | held name holder publisher =>
    "reclaim alias " ++ name.quote ++ " is held by " ++ holder.quote ++
      "; release it before " ++ publisher.quote ++ " can publish"

/-- `runHookValue`: the hook runs and its panic is recovered. -/
def runHookValue (hook : Callback) (n : ℕ) : Option String := hook n

def AliasWatcher.deliverLocked (w : AliasWatcher C) (value : Any C) : AliasWatcher C :=
  if sameValue w.last value then w
  else
    match w.changed with
    | none => { w with last := value }
    | some changed =>
      { w with
        last := value
        calls := w.calls ++ [(value, runHookValue changed w.calls.length)] }

def AliasEntry.storeWatchersLocked (x : AliasEntry C) (current : Any C) : AliasEntry C :=
  let value := if isNilValue current then x.empty else current
  { x with watchers := x.watchers.map (·.deliverLocked value) }

/-- An entry as it is made. -/
def AliasEntry.fresh (name : String) (empty : Any C) : AliasEntry C :=
  ⟨name, none, "", "", empty, []⟩

/-- First non-nil `empty` sticks. -/
def AliasEntry.stick (x : AliasEntry C) (empty : Any C) : AliasEntry C :=
  if x.empty = .nil ∧ empty ≠ .nil then { x with empty := empty } else x

/-- What `Watch` delivers to a new watcher of `x`. -/
def AliasEntry.current (x : AliasEntry C) (tbl : Table (Any C)) : Any C :=
  match x.incarnation with
  | none => x.empty
  | some i => if isNilValue (tbl.slots i).current then x.empty else (tbl.slots i).current

structure AliasTable (C : Type) where
  aliases : String → Option ℕ
  entries : ℕ → AliasEntry C
  nextEntry : ℕ
  /-- `incarnation.aliases` of every slot. -/
  bound : ℕ → List ℕ
  nextWatcher : ℕ

namespace AliasTable

def new : AliasTable C where
  aliases := fun _ => none
  entries := fun _ => .fresh "" .nil
  nextEntry := 0
  bound := fun _ => []
  nextWatcher := 0

def setEntry (t : AliasTable C) (e : ℕ) (x : AliasEntry C) : AliasTable C :=
  { t with entries := update t.entries e x }

def detachAliasLocked (t : AliasTable C) (e : ℕ) : AliasTable C :=
  match (t.entries e).incarnation with
  | none => t
  | some i =>
    { t.setEntry e { t.entries e with incarnation := none } with
      bound := update t.bound i ((t.bound i).filter (· ≠ e)) }

def clearAliasLocked (t : AliasTable C) (e : ℕ) : AliasTable C :=
  let t := t.detachAliasLocked e
  let x := { t.entries e with publisher := "", group := "" }
  t.setEntry e (x.storeWatchersLocked x.empty)

/-- The loop of `unbindIncarnationLocked` at one entry. -/
def unbindEntry (t : AliasTable C) (e : ℕ) : AliasTable C :=
  let x := { t.entries e with incarnation := none, publisher := "", group := "" }
  t.setEntry e (x.storeWatchersLocked x.empty)

def unbindIncarnationLocked (t : AliasTable C) (i : ℕ) : AliasTable C :=
  (t.bound i).foldl unbindEntry { t with bound := update t.bound i [] }

/-- The entries the map holds. -/
def named (t : AliasTable C) : List ℕ :=
  (List.range t.nextEntry).filter fun e => t.aliases (t.entries e).name = some e

/-- The loops of `SetAlias` and of `ClearPublisher` at one entry; `current`
is the entry to leave alone. -/
def clearIfHeld (current : Option ℕ) (publisher group : String) (t : AliasTable C) (e : ℕ) :
    AliasTable C :=
  if some e = current ∨ (t.entries e).publisher ≠ publisher ∨ (t.entries e).group ≠ group then t
  else t.clearAliasLocked e

def clearHeld (t : AliasTable C) (current : Option ℕ) (publisher group : String)
    (order : List ℕ) : AliasTable C :=
  order.foldl (clearIfHeld current publisher group) t

def entryOf (t : AliasTable C) (name : String) (empty : Any C) : AliasTable C × ℕ :=
  match t.aliases name with
  | some e => (t, e)
  | none =>
    ({ t.setEntry t.nextEntry (.fresh name empty) with
        aliases := update t.aliases name (some t.nextEntry)
        nextEntry := t.nextEntry + 1 }, t.nextEntry)

/-- `if entry.incarnation != incarnation { … }`. -/
def rebind (t : AliasTable C) (e i : ℕ) : AliasTable C :=
  if (t.entries e).incarnation = some i then t
  else
    let t := t.detachAliasLocked e
    { t.setEntry e { t.entries e with incarnation := some i } with
      bound := update t.bound i (t.bound i ++ [e]) }

/-- Another publisher on the name. -/
def rival (t : AliasTable C) (name publisher : String) : Option String :=
  match t.aliases name with
  | none => none
  | some e =>
    let holder := (t.entries e).publisher
    if holder ≠ "" ∧ holder ≠ publisher then some holder else none

/-- The mapped incarnation of `key`, when it is awake or asleep. -/
def publishable (tbl : Table (Any C)) (key : String) : Option ℕ :=
  match tbl.items key with
  | none => none
  | some i =>
    if (tbl.slots i).state ≠ .awake ∧ (tbl.slots i).state ≠ .asleep then none else some i

def publish (t : AliasTable C) (tbl : Table (Any C)) (i : ℕ) (name publisher group : String)
    (order : List ℕ) : AliasTable C :=
  let t := t.clearHeld (t.aliases name) publisher group order
  let (t, e) := t.entryOf name .nil
  let t := t.rebind e i
  let x := { t.entries e with publisher := publisher, group := group }
  t.setEntry e (x.storeWatchersLocked (tbl.slots i).current)

def setAlias (t : AliasTable C) (tbl : Table (Any C)) (key name publisher group : String)
    (order : List ℕ) : AliasTable C × Option AliasError :=
  if name = "" ∨ key = "" then (t, none)
  else
    match publishable tbl key with
    | none => (t, some (.noMappedKey name key))
    | some i =>
      match t.rival name publisher with
      | some holder => (t, some (.held name holder publisher))
      | none => (t.publish tbl i name publisher group order, none)

def watch (t : AliasTable C) (tbl : Table (Any C)) (name : String) (empty : Any C)
    (changed : Option Callback) : AliasTable C :=
  if name = "" then t
  else
    let (t, e) := t.entryOf name empty
    let x := (t.entries e).stick empty
    let watcher : AliasWatcher C := ⟨t.nextWatcher, changed, .nil, []⟩
    { t.setEntry e { x with
        watchers := x.watchers ++ [watcher.deliverLocked (x.current tbl)] } with
      nextWatcher := t.nextWatcher + 1 }

def dropWatcher (t : AliasTable C) (name : String) (w : ℕ) : AliasTable C :=
  match t.aliases name with
  | none => t
  | some e =>
    let x := t.entries e
    t.setEntry e { x with watchers := x.watchers.filter fun other => other.id ≠ w }

def clearPublisher (t : AliasTable C) (publisher group : String) (order : List ℕ) :
    AliasTable C :=
  if publisher = "" ∨ group = "" then t else t.clearHeld none publisher group order

/-- What `takeAll` does to the names. -/
def forgetAll (t : AliasTable C) (slots : List ℕ) : AliasTable C :=
  { slots.foldl unbindIncarnationLocked t with aliases := fun _ => none }

/-- What a process does to the names in its lock-held step at `pc`. -/
def endings (t : AliasTable C) (tbl : Table (Any C)) : Pc (Any C) → AliasTable C
  -- `endBusySlot`, `installCloser` and `unmapLocked` all drop the aliases.
  | .createFailed i _ | .panicked i _ _ | .unmapClosed i _ => t.unbindIncarnationLocked i
  | .takeAll => t.forgetAll tbl.mapped
  | _ => t

end AliasTable

/-- The slot `expire` is going to dispose of at `pc`. -/
def Pc.disposes (tbl : Table (Any C)) : Pc (Any C) → Option ℕ
  | .claimExpire i _ => if (tbl.claimExpire i).2 = .dispose then some i else none
  | _ => none

/-! ## The table with its names -/

/-- The table with its names. -/
structure Aliased (C : Type) where
  world : World (Any C)
  names : AliasTable C
  /-- The slot whose aliases the process drops once its Close has returned. -/
  disposing : ℕ → Option ℕ
  /-- The `AfterFunc` of a watcher, with its context and its alias. -/
  drops : ℕ → Option (ℕ × String)

/-- A step of the table, a call on the names, or the end of a dispose. -/
inductive AliasAction (C : Type) where
  | table (a : Action (Any C))
  | setAlias (key name publisher group : String) (order : List ℕ)
  | watch (ctx : ℕ) (name : String) (empty : Any C) (changed : Option Callback)
  | dropWatcher (w : ℕ)
  | clearPublisher (publisher group : String) (order : List ℕ)
  /-- The last lock of `expire`, after Close. -/
  | unbind (p : ℕ)

namespace Aliased

/-- A table from `New`. -/
def init (grace : ℤ) : Aliased C := ⟨World.init grace, .new, fun _ => none, fun _ => none⟩

def pcOf (w : World (Any C)) : Action (Any C) → Option (ℕ × Pc (Any C))
  | .run p _ => (w.procs p).map fun q => (p, q.pc)
  | _ => none

def noteDispose (s : Aliased C) (p : ℕ) (pc : Pc (Any C)) : ℕ → Option ℕ :=
  match pc.disposes s.world.table with
  | none => s.disposing
  | some i => update s.disposing p (some i)

def runTable (s : Aliased C) (a : Action (Any C)) : Option (Aliased C) :=
  (s.world.step a).map fun w =>
    match pcOf s.world a with
    | none => { s with world := w }
    | some (p, pc) =>
      { s with
        world := w
        names := s.names.endings s.world.table pc
        disposing := s.noteDispose p pc }

def runDrop (s : Aliased C) (w : ℕ) : Option (Aliased C) :=
  match s.drops w with
  | none => none
  | some (ctx, name) =>
    if (s.world.ctxErr ctx).isSome then
      some { s with
        names := s.names.dropWatcher name w
        drops := update s.drops w none }
    else none

def runUnbind (s : Aliased C) (p : ℕ) : Option (Aliased C) :=
  match s.disposing p, s.world.procs p with
  | some i, some ⟨_, .finished⟩ =>
    some { s with
      names := s.names.unbindIncarnationLocked i
      disposing := update s.disposing p none }
  | _, _ => none

/-- What `SetAlias` returns in `s`. -/
def aliasError (s : Aliased C) (key name publisher group : String) (order : List ℕ) :
    Option AliasError :=
  (s.names.setAlias s.world.table key name publisher group order).2

def step (s : Aliased C) : AliasAction C → Option (Aliased C)
  | .table a => s.runTable a
  | .setAlias key name publisher group order =>
    if order.isPerm s.names.named then
      some { s with
        names := (s.names.setAlias s.world.table key name publisher group order).1 }
    else none
  | .watch ctx name empty changed =>
    some { s with
      names := s.names.watch s.world.table name empty changed
      drops := if name = "" then s.drops
        else update s.drops s.names.nextWatcher (some (ctx, name)) }
  | .dropWatcher w => s.runDrop w
  | .clearPublisher publisher group order =>
    if order.isPerm s.names.named then
      some { s with names := s.names.clearPublisher publisher group order }
    else none
  | .unbind p => s.runUnbind p

end Aliased

end MiddlewareUtils.Reclaim
