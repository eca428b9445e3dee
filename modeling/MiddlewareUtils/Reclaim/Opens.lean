import MiddlewareUtils.Reclaim.Moves

/-!
# What an Open waited for and what it returned

The table's machine with a memory. `createErr` is one field of a slot and
forgets which transition left it; `parked` forgets its channel once the
channel is closed; and a value travels from create or from the slot to
Open's caller without a trace in the log. `Opens` runs the machine unchanged
and notes all of this beside it: nothing of the machine reads the notes.

A transition of a slot is told apart by the `ready` made for it. A create or
a Wake that fails is noted with the process that ran it and with that
channel, when the failure comes back and before anyone can see it.
-/

namespace MiddlewareUtils.Reclaim

open Function

variable {V : Type}

/-- A create or a Wake that failed: who ran it, the `ready` of its
transition, and the error Open makes of it. -/
structure Fault where
  runner : ℕ
  hook : Hook
  ready : ℕ
  err : OpenError
  deriving DecidableEq, Repr

/-- The slot whose create or Wake has failed, with the error to be stored. -/
def Pc.fails : Pc V → Option (ℕ × Hook × OpenError)
  | createFailed i err => some (i, .create, err)
  | panicked i (some err) _ => some (i, .wake, err)
  | _ => none

/-- The table with what each Open waited for and returned. -/
structure Opens (V : Type) where
  world : World V
  /-- The slot and the `ready` a process parked on last. -/
  waited : ℕ → Option (ℕ × ℕ)
  /-- The fault of a slot. -/
  faults : ℕ → Option Fault
  /-- What create returned for a slot. -/
  created : ℕ → Option V
  /-- The value an Open has in hand. -/
  value : ℕ → Option V
  /-- The value an Open has returned with a nil error. -/
  returned : ℕ → Option V

namespace Opens

def init (grace : ℤ) : Opens V where
  world := World.init grace
  waited := fun _ => none
  faults := fun _ => none
  created := fun _ => none
  value := fun _ => none
  returned := fun _ => none

def noteWait (s : Opens V) (p : ℕ) : Pc V → ℕ → Option (ℕ × ℕ)
  | .parked i ready => update s.waited p (some (i, ready))
  | _ => s.waited

def noteFault (s : Opens V) (p : ℕ) (t : Table V) (pc : Pc V) : ℕ → Option Fault :=
  match pc.fails with
  | some (i, hook, err) => update s.faults i (some ⟨p, hook, (t.slots i).ready, err⟩)
  | none => s.faults

def noteCreated (s : Opens V) : Pc V → ℕ → Option V
  | .publishPut i v _ => update s.created i (some v)
  | _ => s.created

/-- `step.value` of a bind or a wake, or what create has returned. -/
def noteValue (s : Opens V) (p : ℕ) (t : Table V) : Pc V → Pc V → ℕ → Option V
  | .lookup, .finishBind i | .lookup, .wakeCall i => update s.value p (t.slots i).value
  | _, .publishPut _ v _ => update s.value p (some v)
  | _, _ => s.value

def noteReturned (s : Opens V) (p : ℕ) : Pc V → ℕ → Option V
  | .dropWhenDone _ => update s.returned p (s.value p)
  | _ => s.returned

/-- A step of process `p` from `pc` to `pc'`, after which the world is `w`. -/
def note (s : Opens V) (w : World V) (p : ℕ) (pc pc' : Pc V) : Opens V where
  world := w
  waited := s.noteWait p pc'
  faults := s.noteFault p w.table pc'
  created := s.noteCreated pc'
  value := s.noteValue p w.table pc pc'
  returned := s.noteReturned p pc

def step (s : Opens V) (a : Action V) : Option (Opens V) :=
  (s.world.step a).map fun w =>
    match a with
    | .run p _ =>
      match s.world.procs p, w.procs p with
      | some q, some q' => s.note w p q.pc q'.pc
      | _, _ => { s with world := w }
    | _ => { s with world := w }

/-! ## Steps -/

inductive Steps (s : Opens V) : Action V → Opens V → Prop
  | quiet {a w} (hs : s.world.step a = some w) (ha : ∀ p inp, a ≠ .run p inp) :
      Steps s a { s with world := w }
  | run {p inp caller pc t pc' evs} (hs : s.world.step (.run p inp) =
        some (s.world.moved p caller t pc' evs)) (hp : s.world.procs p = some ⟨caller, pc⟩)
      (hm : Move (s.world.env p caller) s.world.table pc t pc' evs) :
      Steps s (.run p inp) (s.note (s.world.moved p caller t pc' evs) p pc pc')

theorem step_cases {s s' : Opens V} {a : Action V} (h : s.step a = some s') : s.Steps a s' := by
  obtain ⟨w, hw, rfl⟩ := Option.map_eq_some_iff.mp h
  cases World.step_cases hw with
  | openKey | cancel | reset | tick | fire => exact .quiet hw nofun
  | run hp hm =>
    simp only [hp, World.procs_moved_self]
    exact .run hw hp hm

/-- The machine does not read the notes. -/
theorem world_of_step {s s' : Opens V} {a : Action V} (h : s.step a = some s') :
    s.world.step a = some s'.world := by
  cases step_cases h with
  | quiet hs | run hs => exact hs

theorem step_of_advance {s : Opens V} {p : ℕ} {caller : Caller} {pc pc' : Pc V} {inp : Input V}
    {t : Table V} {evs : List Event} (hp : s.world.procs p = some ⟨caller, pc⟩)
    (hadv : advance (s.world.env p caller) s.world.table inp pc = some (t, pc', evs)) :
    s.step (.run p inp) = some (s.note (s.world.moved p caller t pc' evs) p pc pc') := by
  simp only [step, World.step_of_advance hp hadv, Option.map_some, hp, World.procs_moved_self]

section Notes

variable {s : Opens V} {w : World V} {p q i : ℕ} {pc pc' : Pc V} {t : Table V}

theorem noteWait_of_ne (hq : q ≠ p) : s.noteWait p pc q = s.waited q := by
  unfold noteWait
  split
  · exact update_of_ne hq ..
  · rfl

theorem noteFault_of_ne (hi : ∀ hook err, pc.fails ≠ some (i, hook, err)) :
    s.noteFault p t pc i = s.faults i := by
  unfold noteFault
  cases hf : pc.fails with
  | none => rfl
  | some f =>
    refine update_of_ne ?_ ..
    rintro rfl
    exact hi f.2.1 f.2.2 hf

theorem noteFault_self {hook : Hook} {err : OpenError} (h : pc.fails = some (i, hook, err)) :
    s.noteFault p t pc i = some ⟨p, hook, (t.slots i).ready, err⟩ := by
  unfold noteFault
  rw [h]
  exact update_self ..

end Notes

end Opens

end MiddlewareUtils.Reclaim
