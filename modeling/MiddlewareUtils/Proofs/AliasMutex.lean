import MiddlewareUtils.Lib.Abrupt
import MiddlewareUtils.Proofs.AliasGraph
import MiddlewareUtils.Reclaim.AliasPanics

/-!
# When a delivery panics, and what the mutex is then

A lock-held function tells values to watchers, and it panics exactly when a
watcher it gets to was last told something the new value cannot be compared
with. Each entry is told at most once in a step: the loops run over different
entries, and the lists of two incarnations have none in common. So whether a
step panics can be read off the state before it (`comparable`), function by
function with the rules of `Goes`.

That the lists have nothing in common is the agreement of the links
(`Lib.Backlinks`), which every step keeps, those of Reset too.

Where every step is comparable the machine is the one of `Alias`, the mutex
is free in every state, and an Open can always look its key up. A value that
cannot be compared is not enough for a panic: published once and dropped
again it is compared with nothing. The second time it is published it is
compared with itself.
-/

namespace MiddlewareUtils.Reclaim

open Lib Function

variable {C : Type} [DecidableEq C] (raises : C → C → Bool)

/-! ## What a step compares -/

def AliasEntry.canTell (x : AliasEntry C) (value : Any C) : Bool :=
  x.watchers.all fun w => !sameValuePanics raises w.last value

namespace AliasTable

def canDrop (t : AliasTable C) (i : ℕ) : Bool :=
  (t.bound i).all fun e => (t.entries e).canTell raises (t.entries e).empty

def canClear (t : AliasTable C) (current : Option ℕ) (publisher group : String) : Bool :=
  t.named.all fun e =>
    decide (some e = current) || !decide ((t.entries e).HeldBy publisher group) ||
      (t.entries e).canTell raises (t.entries e).empty

def told (tbl : Table (Any C)) (i : ℕ) (x : AliasEntry C) : Any C :=
  if isNilValue (tbl.slots i).current then x.empty else (tbl.slots i).current

def canPublish (t : AliasTable C) (tbl : Table (Any C)) (i : ℕ) (name publisher group : String) :
    Bool :=
  t.canClear raises (t.aliases name) publisher group &&
    (t.base name .nil).canTell raises (told tbl i (t.base name .nil))

end AliasTable

/-- Go can compare whatever the step compares. -/
def Aliased.comparable (s : Aliased C) : AliasAction C → Bool
  | .table a => (pcOf s.world a).all fun (_, pc) =>
    (pc.drops s.world.table).all (s.names.canDrop raises)
  | .setAlias key name publisher group _ =>
    decide (name = "" ∨ key = "") || (s.names.rival name publisher).isSome ||
      (AliasTable.publishable s.world.table key).all fun i =>
        s.names.canPublish raises s.world.table i name publisher group
  | .clearPublisher publisher group _ =>
    decide (publisher = "" ∨ group = "") || s.names.canClear raises none publisher group
  | .unbind p => (s.disposing p).all (s.names.canDrop raises)
  | _ => true

/-! ## The lock-held functions -/

theorem deliverAll_spec (value : Any C) (ws : List (AliasWatcher C)) :
    ((∀ w ∈ ws, sameValuePanics raises w.last value = false) →
        deliverAll raises value ws = (ws.map (·.deliverLocked value), false)) ∧
      (¬ (∀ w ∈ ws, sameValuePanics raises w.last value = false) →
        (deliverAll raises value ws).2 = true) := by
  induction ws with
  | nil => exact ⟨fun _ => rfl, fun hno => absurd nofun hno⟩
  | cons w ws ih =>
    rw [deliverAll, List.forall_mem_cons]
    cases hw : sameValuePanics raises w.last value with
    | true => exact ⟨fun hall => absurd hall.1 nofun, fun _ => rfl⟩
    | false =>
      rw [if_neg Bool.false_ne_true]
      refine ⟨fun hall => ?_, fun hno => ?_⟩
      · rw [ih.1 hall.2]
        rfl
      · exact ih.2 fun hall => hno ⟨rfl, hall⟩

omit [DecidableEq C] in
theorem AliasEntry.canTell_iff {x : AliasEntry C} {value : Any C} :
    x.canTell raises value = true ↔
      ∀ w ∈ x.watchers, sameValuePanics raises w.last value = false := by
  unfold canTell
  rw [List.all_eq_true]
  constructor
  · intro h w hw
    exact Bool.not_eq_true' _ ▸ h w hw
  · intro h w hw
    rw [h w hw]
    rfl

namespace Delivering

variable {t : AliasTable C}

theorem goes_storeWatchersLocked (e : ℕ) (current : Any C) :
    Goes (storeWatchersLocked raises e current) t
      ((t.entries e).canTell raises
        (if isNilValue current then (t.entries e).empty else current) = true) ()
      (t.setEntry e ((t.entries e).storeWatchersLocked current)) := by
  have hspec := deliverAll_spec raises
    (if isNilValue current then (t.entries e).empty else current) (t.entries e).watchers
  have hrun : storeWatchersLocked raises e current t =
      (if (deliverAll raises (if isNilValue current then (t.entries e).empty else current)
          (t.entries e).watchers).2 then throw () else pure () : Delivering C Unit)
        (t.setEntry e { t.entries e with
          watchers := (deliverAll raises
            (if isNilValue current then (t.entries e).empty else current)
              (t.entries e).watchers).1 }) := rfl
  rw [AliasEntry.canTell_iff]
  refine ⟨fun hcan => ?_, fun hno => ?_⟩
  · rw [hrun, hspec.1 hcan]
    rfl
  · rw [hrun, hspec.2 hno]
    exact ⟨_, _, rfl⟩

theorem goes_tellEmpty {e : ℕ} {x y : AliasEntry C} (hx : t.entries e = x)
    (hw : x.watchers = y.watchers) (hempty : x.empty = y.empty) :
    Goes (do let u ← get; storeWatchersLocked raises e (u.entries e).empty) t
      (y.canTell raises y.empty = true) () (t.setEntry e (x.storeWatchersLocked x.empty)) := by
  have hstore := goes_storeWatchersLocked raises (t := t) e (t.entries e).empty
  rw [ite_self, hx] at hstore
  have hcan : x.canTell raises x.empty = y.canTell raises y.empty := by
    unfold AliasEntry.canTell
    rw [hw, hempty]
  rw [hcan] at hstore
  refine Goes.after (r := t) (u := t) rfl ?_
  rw [hx]
  exact hstore

omit [DecidableEq C] in
theorem setEntry_setEntry (e : ℕ) (x y : AliasEntry C) :
    (t.setEntry e x).setEntry e y = t.setEntry e y := by
  unfold AliasTable.setEntry
  dsimp only
  rw [update_idem]

theorem goes_unbindEntry (e : ℕ) :
    Goes (unbindEntry raises e) t
      ((t.entries e).canTell raises (t.entries e).empty = true) () (t.unbindEntry e) := by
  have htell := goes_tellEmpty raises (y := t.entries e)
    (t := t.setEntry e { t.entries e with incarnation := none, publisher := "", group := "" })
    (update_self ..) rfl rfl
  rw [setEntry_setEntry] at htell
  exact Goes.after rfl htell

theorem goes_clearAliasLocked (e : ℕ) :
    Goes (clearAliasLocked raises e) t
      ((t.entries e).canTell raises (t.entries e).empty = true) () (t.clearAliasLocked e) := by
  have hdetached : (t.detachAliasLocked e).entries e =
      { t.entries e with incarnation := none } := by
    rw [AliasTable.entries_detachAliasLocked, update_self]
  have htell := goes_tellEmpty raises (y := t.entries e)
    (t := (t.detachAliasLocked e).setEntry e
      { (t.detachAliasLocked e).entries e with publisher := "", group := "" })
    (update_self ..) (by rw [hdetached]) (by rw [hdetached])
  rw [setEntry_setEntry] at htell
  exact Goes.after rfl (Goes.after rfl htell)

/-! ## The loops -/

theorem goes_unbindIncarnationLocked (hlinks : t.Links) (i : ℕ) :
    Goes (unbindIncarnationLocked raises i) t (t.canDrop raises i = true) ()
      (t.unbindIncarnationLocked i) := by
  have hloop := Goes.forM (x := unbindEntry raises) (f := AliasTable.unbindEntry)
    (I := fun _ => True)
    (P := fun u e => (u.entries e).canTell raises (u.entries e).empty = true)
    (fun u e _ => goes_unbindEntry raises e) (fun _ _ _ => trivial)
    (fun u e f _ hfe => by
      rw [show (u.unbindEntry e).entries f = u.entries f from update_of_ne hfe ..])
    (hlinks.nodup i) (s := { t with bound := update t.bound i [] }) trivial
  rw [AliasTable.canDrop, List.all_eq_true]
  exact Goes.after (r := t) (u := t) rfl (Goes.after (r := ⟨⟩) rfl hloop)

section ClearHeld

variable (current : Option ℕ) (publisher group : String)

def fineToClear (t : AliasTable C) (e : ℕ) : Prop :=
  some e ≠ current → (t.entries e).HeldBy publisher group →
    (t.entries e).canTell raises (t.entries e).empty = true

theorem goes_clearIfHeld (e : ℕ) :
    Goes (clearIfHeld raises current publisher group e) t
      (fineToClear raises current publisher group t e) ()
      (AliasTable.clearIfHeld current publisher group t e) := by
  rw [AliasTable.clearIfHeld_eq]
  refine Goes.after (r := t) (u := t) rfl ?_
  by_cases hheld : some e ≠ current ∧ (t.entries e).HeldBy publisher group
  · obtain ⟨hc, hp, hg⟩ := hheld
    rw [if_neg (by push Not; exact ⟨hc, hp, hg⟩), if_pos ⟨hc, hp, hg⟩]
    exact (goes_clearAliasLocked raises e).congr
      ⟨fun h _ _ => h, fun h => h hc ⟨hp, hg⟩⟩
  · rw [if_neg hheld, if_pos (by by_contra hnot; push Not at hnot; exact hheld hnot)]
    exact (Goes.of_eq rfl).congr
      ⟨fun _ hc hh => absurd ⟨hc, hh⟩ hheld, fun _ => trivial⟩

theorem goes_clearHeld {order : List ℕ} (hperm : order.Perm t.named) :
    Goes (clearHeld raises current publisher group order) t
      (t.canClear raises current publisher group = true) ()
      (t.clearHeld current publisher group order) := by
  have hloop := Goes.forM (x := clearIfHeld raises current publisher group)
    (f := AliasTable.clearIfHeld current publisher group) (I := fun _ => True)
    (P := fineToClear raises current publisher group)
    (fun u e _ => goes_clearIfHeld raises current publisher group e) (fun _ _ _ => trivial)
    (fun u e f _ hfe => by
      have hsame : (AliasTable.clearIfHeld current publisher group u e).entries f =
          u.entries f := by
        rw [AliasTable.clearIfHeld_eq]
        split
        · rw [AliasTable.entries_clearAliasLocked, update_of_ne hfe]
        · rfl
      rw [fineToClear, fineToClear, hsame])
    (hperm.nodup_iff.mpr t.named_nodup) (s := t) trivial
  refine hloop.congr ?_
  rw [AliasTable.canClear, List.all_eq_true]
  constructor
  · intro h e he
    have hfine := h e (hperm.mem_iff.mpr he)
    by_cases hc : some e = current
    · rw [decide_eq_true hc]
      rfl
    · by_cases hh : (t.entries e).HeldBy publisher group
      · rw [hfine hc hh, Bool.or_true]
      · rw [decide_eq_false hh]
        simp only [Bool.not_false, Bool.or_true, Bool.true_or]
  · intro h e he hc hh
    have hfine := h e (hperm.mem_iff.mp he)
    rw [decide_eq_false hc, decide_eq_true hh] at hfine
    exact hfine

end ClearHeld

/-! ## The calls -/

theorem goes_publish (tbl : Table (Any C)) (i : ℕ) (name publisher group : String)
    {order : List ℕ} (hperm : order.Perm t.named) :
    Goes (publish raises tbl i name publisher group order) t
      (t.canPublish raises tbl i name publisher group = true) ()
      (t.publish tbl i name publisher group order) := by
  have hclear := goes_clearHeld raises (t.aliases name) publisher group hperm
  have hbase := t.base_clearHeld name publisher group (hperm.nodup_iff.mpr t.named_nodup) .nil
  generalize hu : t.clearHeld (t.aliases name) publisher group order = u at hclear hbase
  generalize hv : (u.entryOf name .nil).1.rebind (u.entryOf name .nil).2 i = v
  -- The entry to be told has the watchers and the `empty` it had before the loop.
  have hentry : v.entries (u.entryOf name .nil).2 =
      { t.base name .nil with incarnation := some i } := by
    rw [← hv, AliasTable.entries_rebind, update_self, AliasTable.entries_entryOf,
      AliasTable.entryOf_snd, update_self, hbase]
  have hstore := goes_storeWatchersLocked raises (t := v.setEntry (u.entryOf name .nil).2
    { v.entries (u.entryOf name .nil).2 with publisher := publisher, group := group })
    (u.entryOf name .nil).2 (tbl.slots i).current
  rw [show (v.setEntry (u.entryOf name .nil).2 { v.entries (u.entryOf name .nil).2 with
      publisher := publisher, group := group }).entries (u.entryOf name .nil).2 = _ from
    update_self .., setEntry_setEntry] at hstore
  have hcan : t.canPublish raises tbl i name publisher group = true ↔
      t.canClear raises (t.aliases name) publisher group = true ∧
        (t.base name .nil).canTell raises (AliasTable.told tbl i (t.base name .nil)) = true := by
    rw [AliasTable.canPublish, Bool.and_eq_true]
  have hresult : t.publish tbl i name publisher group order =
      v.setEntry (u.entryOf name .nil).2 (({ v.entries (u.entryOf name .nil).2 with
        publisher := publisher, group := group } : AliasEntry C).storeWatchersLocked
          (tbl.slots i).current) := by
    rw [← hv, ← hu]
    rfl
  rw [hcan, hresult]
  rw [hentry] at hstore ⊢
  refine Goes.after (r := t) (u := t) rfl (hclear.bind fun _ => ?_)
  refine Goes.after (r := u) (u := u) rfl (Goes.after (r := ⟨⟩) (u := v.setEntry
    (u.entryOf name .nil).2 { v.entries (u.entryOf name .nil).2 with
      publisher := publisher, group := group }) ?_ ?_)
  · rw [← hv]
    rfl
  · rw [hentry]
    exact hstore

theorem goes_setAlias (tbl : Table (Any C)) (key name publisher group : String)
    {order : List ℕ} (hperm : order.Perm t.named) :
    Goes (setAlias raises tbl key name publisher group order) t
      ((decide (name = "" ∨ key = "") || (t.rival name publisher).isSome ||
        (AliasTable.publishable tbl key).all fun i =>
          t.canPublish raises tbl i name publisher group) = true) ()
      (t.setAlias tbl key name publisher group order).1 := by
  unfold setAlias AliasTable.setAlias
  refine Goes.after (r := t) (u := t) rfl ?_
  by_cases hnone : name = "" ∨ key = ""
  · rw [if_pos hnone, if_pos hnone, decide_eq_true hnone]
    exact (Goes.of_eq rfl).congr ⟨fun _ => rfl, fun _ => trivial⟩
  · rw [if_neg hnone, if_neg hnone, decide_eq_false hnone]
    cases AliasTable.publishable tbl key with
    | none => exact (Goes.of_eq rfl).congr ⟨fun _ => Bool.or_true _, fun _ => trivial⟩
    | some i =>
      cases t.rival name publisher with
      | some holder => exact (Goes.of_eq rfl).congr ⟨fun _ => rfl, fun _ => trivial⟩
      | none => exact goes_publish raises tbl i name publisher group hperm

theorem goes_clearPublisher (publisher group : String) {order : List ℕ}
    (hperm : order.Perm t.named) :
    Goes (clearPublisher raises publisher group order) t
      ((decide (publisher = "" ∨ group = "") || t.canClear raises none publisher group) = true) ()
      (t.clearPublisher publisher group order) := by
  unfold clearPublisher AliasTable.clearPublisher
  by_cases hnone : publisher = "" ∨ group = ""
  · rw [if_pos hnone, if_pos hnone, decide_eq_true hnone]
    exact (Goes.of_eq rfl).congr ⟨fun _ => rfl, fun _ => trivial⟩
  · rw [if_neg hnone, if_neg hnone, decide_eq_false hnone]
    exact goes_clearHeld raises none publisher group hperm

theorem canDrop_unbindIncarnationLocked (hlinks : t.Links) {i j : ℕ} (hji : j ≠ i) :
    (t.unbindIncarnationLocked i).canDrop raises j = t.canDrop raises j := by
  unfold AliasTable.canDrop
  rw [AliasTable.bound_unbindIncarnationLocked, update_of_ne hji, Bool.eq_iff_iff,
    List.all_eq_true, List.all_eq_true]
  refine forall₂_congr fun e he => ?_
  have hother : (t.entries e).incarnation ≠ some i := by
    rw [(hlinks.mem e j).mp he]
    exact fun h => hji (Option.some.inj h)
  rw [AliasTable.entries_unbindIncarnationLocked hlinks, if_neg hother]

theorem goes_forgetAll (hlinks : t.Links) {slots : List ℕ} (hnodup : slots.Nodup) :
    Goes (forgetAll raises slots) t (slots.all (t.canDrop raises) = true) ()
      (t.forgetAll slots) := by
  have hloop := Goes.forM (x := unbindIncarnationLocked raises)
    (f := AliasTable.unbindIncarnationLocked) (I := AliasTable.Links)
    (P := fun u i => u.canDrop raises i = true)
    (fun u i hu => goes_unbindIncarnationLocked raises hu i)
    (fun u i hu => hu.unbindIncarnationLocked i)
    (fun u i j hu hji => by rw [canDrop_unbindIncarnationLocked raises hu hji])
    hnodup hlinks
  rw [List.all_eq_true]
  exact hloop.before rfl

theorem goes_endings (hlinks : t.Links) (tbl : Table (Any C)) (pc : Pc (Any C)) :
    Goes (endings raises tbl pc) t ((pc.drops tbl).all (t.canDrop raises) = true) ()
      (t.endings tbl pc) := by
  have hone : ∀ i, Goes (unbindIncarnationLocked raises i) t
      ([i].all (t.canDrop raises) = true) () (t.unbindIncarnationLocked i) := by
    intro i
    rw [List.all_cons, List.all_nil, Bool.and_true]
    exact goes_unbindIncarnationLocked raises hlinks i
  cases pc with
  | createFailed i _ => exact hone i
  | panicked i _ _ => exact hone i
  | unmapClosed i _ => exact hone i
  | takeAll => exact goes_forgetAll raises hlinks (List.nodup_range.filter _)
  | _ => exact (Goes.of_eq rfl).congr ⟨fun _ => rfl, fun _ => trivial⟩

end Delivering

/-! ## A step and its panic -/

/-- A step with its panic, `x`, against the step without, `y`: they are the
same when `p`, and otherwise the step panics where it is enabled. -/
structure PanicsUnless (p : Prop) (x : Option (Aliased C × Bool)) (y : Option (Aliased C)) :
    Prop where
  through : p → x = y.map fun s => (s, false)
  stops : ¬ p → y.isSome = true → ∃ s, x = some (s, true)

namespace PanicsUnless

variable {p : Prop} {s : Aliased C}

omit [DecidableEq C] in
theorem quiet {x : Option (Aliased C × Bool)} {y : Option (Aliased C)}
    (h : x = y.map fun s => (s, false)) (hp : y.isSome = true → p) : PanicsUnless p x y :=
  ⟨fun _ => h, fun hno hy => absurd (hp hy) hno⟩

omit [DecidableEq C] in
theorem idle : PanicsUnless p (none : Option (Aliased C × Bool)) none :=
  .quiet rfl fun h => absurd h Bool.false_ne_true

omit [DecidableEq C] in
theorem settle {x : Delivering C Unit} {t names : AliasTable C} (h : Goes x names p () t) :
    PanicsUnless p (some (s.settle (x names))) (some { s with names := t }) := by
  refine ⟨fun hp => ?_, fun hno _ => ?_⟩
  · rw [h.through hp]
    rfl
  · obtain ⟨_, u, hu⟩ := h.stops hno
    rw [hu]
    exact ⟨{ s with names := u }, rfl⟩

omit [DecidableEq C] in
theorem guarded {x : Option (Aliased C × Bool)} {y : Option (Aliased C)} {c : Prop} [Decidable c]
    (h : c → PanicsUnless p x y) :
    PanicsUnless p (if c then x else none) (if c then y else none) := by
  by_cases hc : c
  · rw [if_pos hc, if_pos hc]
    exact h hc
  · rw [if_neg hc, if_neg hc]
    exact quiet rfl nofun

end PanicsUnless

namespace Aliased

variable {s : Aliased C}

theorem attemptTable_spec (h : s.names.Links) (a : Action (Any C)) :
    PanicsUnless (s.comparable raises (.table a) = true) (s.attemptTable raises a)
      (s.runTable a) := by
  rw [attemptTable, runTable, comparable]
  cases s.world.step a with
  | none => exact .idle
  | some w =>
    cases pcOf s.world a with
    | none => exact .quiet rfl fun _ => rfl
    | some run =>
      obtain ⟨p, pc⟩ := run
      have hends := Delivering.goes_endings raises h s.world.table pc
      refine ⟨fun hp => ?_, fun hno _ => ?_⟩
      · simp only [Option.map_some, hends.through hp]
      · obtain ⟨_, u, hu⟩ := hends.stops hno
        simp only [Option.map_some, hu]
        exact ⟨_, rfl⟩

theorem attempt_spec (h : s.names.Links) (a : AliasAction C) :
    PanicsUnless (s.comparable raises a = true) (s.attempt raises a) (s.step a) := by
  cases a with
  | table a => exact attemptTable_spec raises h a
  | setAlias key name publisher group order =>
    exact .guarded fun hperm => .settle (Delivering.goes_setAlias raises s.world.table key name
      publisher group (List.isPerm_iff.mp hperm))
  | watch ctx name empty changed => exact .quiet rfl fun _ => rfl
  | dropWatcher w => exact .quiet rfl fun _ => rfl
  | clearPublisher publisher group order =>
    exact .guarded fun hperm => .settle (Delivering.goes_clearPublisher raises publisher group
      (List.isPerm_iff.mp hperm))
  | unbind p =>
    rw [attempt, step, attemptUnbind, runUnbind, comparable]
    cases s.disposing p with
    | none => exact .idle
    | some i =>
      cases s.world.procs p with
      | none => exact .idle
      | some q =>
        obtain ⟨caller, pc⟩ := q
        cases pc with
        | finished => exact .settle (Delivering.goes_unbindIncarnationLocked raises h i)
        | _ => exact .idle

end Aliased

/-! ## Whole runs -/

structure MutexFree (s : Guarded C) : Prop where
  linked : NamesInv s.aliased.names
  free : s.held = false
  panics : s.panics = 0

namespace MutexFree

variable {s s' : Guarded C} {a : AliasAction C}

omit [DecidableEq C] in
theorem init (grace : ℤ) : MutexFree (.init grace : Guarded C) := ⟨.new, rfl, rfl⟩

theorem step_eq (h : MutexFree s) :
    s.step raises a = (s.aliased.attempt raises a).map fun (aliased, panicked) =>
      ⟨aliased, panicked && Guarded.plainUnlock a, if panicked then 1 else 0⟩ := by
  rw [Guarded.step, h.free, h.panics, if_neg fun hheld => absurd hheld.1 Bool.false_ne_true]
  rfl

theorem step_of_comparable (h : MutexFree s) (hcan : s.aliased.comparable raises a = true) :
    s.step raises a = (s.aliased.step a).map fun aliased => ⟨aliased, false, 0⟩ := by
  rw [h.step_eq raises, (Aliased.attempt_spec raises h.linked.links a).through hcan,
    Option.map_map]
  rfl

theorem step (h : MutexFree s) (hcan : s.aliased.comparable raises a = true)
    (hs : s.step raises a = some s') : MutexFree s' ∧ s.aliased.step a = some s'.aliased := by
  rw [h.step_of_comparable raises hcan] at hs
  obtain ⟨aliased, hstep, rfl⟩ := Option.map_eq_some_iff.mp hs
  exact ⟨⟨h.linked.step hstep, rfl, rfl⟩, hstep⟩

theorem panics_of_not_comparable (h : MutexFree s) (henabled : (s.aliased.step a).isSome = true)
    (hcannot : s.aliased.comparable raises a = false) :
    ∃ s', s.step raises a = some s' ∧ s'.panics = 1 ∧ s'.held = Guarded.plainUnlock a := by
  have hno : ¬ s.aliased.comparable raises a = true := by
    rw [hcannot]
    exact Bool.false_ne_true
  obtain ⟨aliased, hpanic⟩ :=
    (Aliased.attempt_spec raises h.linked.links a).stops hno henabled
  rw [h.step_eq raises, hpanic]
  exact ⟨_, rfl, rfl, rfl⟩

theorem open_runs (h : MutexFree s) {p ctx : ℕ} {key : String} {pollsErr : Bool}
    (hp : s.aliased.world.procs p = some ⟨.opener key ctx pollsErr, .lookup⟩) :
    (s.step raises (.table (.run p .none))).isSome = true := by
  have hcan : s.aliased.comparable raises (.table (.run p .none)) = true := by
    rw [Aliased.comparable, Aliased.pcOf, hp]
    rfl
  have hstep : (s.aliased.world.step (.run p .none)).isSome = true := by
    show (World.runProc s.aliased.world p .none).isSome = true
    rw [World.runProc, hp]
    dsimp only [advance, World.env]
    cases Table.lookupOpen s.aliased.world.table key with
    | mk t found => cases found <;> rfl
  rw [h.step_of_comparable raises hcan, Option.isSome_map]
  show (Aliased.runTable _ _).isSome = true
  rw [Aliased.runTable, Option.isSome_map, hstep]

end MutexFree

/-- As long as Go can compare what each step compares, no step panics, the
table and its names are those of `Alias`, the mutex is free and an Open gets
it. The first step that compares what Go cannot panics. -/
theorem comparable_deliveries_free_mutex {grace : ℤ} {acts : List (AliasAction C)}
    {s : Guarded C} (hrun : run (Guarded.step raises) (.init grace) acts = some s)
    (hcomparable : Along (Guarded.step raises)
      (fun s a => s.aliased.comparable raises a = true) (.init grace) acts) :
    s.panics = 0 ∧ s.held = false ∧
      run Aliased.step (.init grace) acts = some s.aliased ∧
      (∀ p key ctx pollsErr,
        s.aliased.world.procs p = some ⟨.opener key ctx pollsErr, .lookup⟩ →
          (s.step raises (.table (.run p .none))).isSome = true) ∧
      ∀ a, (s.aliased.step a).isSome = true → s.aliased.comparable raises a = false →
        ∃ s', s.step raises a = some s' ∧ s'.panics = 1 ∧
          s'.held = Guarded.plainUnlock a := by
  have hstep : ∀ (s : Guarded C) a s', MutexFree s → s.aliased.comparable raises a = true →
      s.step raises a = some s' → MutexFree s' ∧ s.aliased.step a = some s'.aliased :=
    fun s a s' h hcan hs => h.step raises hcan hs
  have hfree : MutexFree s :=
    run_inv_along (fun s a s' h hcan hs => (hstep s a s' h hcan hs).1) hcomparable
      (.init grace) hrun
  exact ⟨hfree.panics, hfree.free, run_map_along hstep hcomparable (.init grace) hrun,
    fun p key ctx pollsErr hp => hfree.open_runs raises hp,
    fun a henabled hcannot => hfree.panics_of_not_comparable raises henabled hcannot⟩

/-- Values of one slice type: Go compares no two of them, nor one with
itself. -/
def slices (_ _ : ℕ) : Bool := true

def putSlice : List (AliasAction ℕ) :=
  ([Action.openKey "key" 0 false] ++ steps 0 2 ++
    [Action.run 0 (.created (Any.comparable 0) Hooks.none)] ++ steps 0 1).map .table

/-- A watcher hears of the slice, and of nil when its publisher clears it. -/
def publishOnce : List (AliasAction ℕ) :=
  putSlice ++ [.watch 1 "name" .nil none, .setAlias "key" "name" "P" "G" [0],
    .clearPublisher "P" "G" [0]]

theorem comparable_deliveries_free_mutex_once : ∃ s : Guarded ℕ,
    run (Guarded.step slices) (.init 0) publishOnce = some s ∧
    (s.aliased.names.entries 0).watchers.map (·.last) = [.nil] ∧
    s.panics = 0 ∧ s.held = false := by
  have hruns : (run (Guarded.step slices) (.init 0) publishOnce).map
      (fun s => (s.aliased.names.entries 0).watchers.map (·.last)) = some [.nil] := by
    decide +kernel
  obtain ⟨s, hrun, hlast⟩ := Option.map_eq_some_iff.mp hruns
  have h := comparable_deliveries_free_mutex slices hrun (by decide +kernel)
  exact ⟨s, hrun, hlast, h.1, h.2.1⟩

/-- The value is published again under the name it already has. -/
def publishTwice : List (AliasAction ℕ) :=
  putSlice ++ [.watch 1 "name" .nil none, .setAlias "key" "name" "P" "G" [0],
    .setAlias "key" "name" "P" "G" [0]]

/-- A watcher whose `empty` is a slice as well has heard of the value. The
context of the Open ends before the Open has bound it, so the Open itself
drops the holder, expires the value and drops its names. Then another Open
comes. -/
def expireTold : List (AliasAction ℕ) :=
  putSlice ++ [.setAlias "key" "name" "P" "G" [], .watch 1 "name" (.comparable 1) none] ++
    ([Action.cancel 0 "context canceled"] ++ steps 0 9).map .table ++
    [.unbind 0, .table (.openKey "other" 2 false)]

/-- `SetAlias` panics when it is called twice with a slice, and the panic at
the end of `expire` leaves the mutex locked: the next Open never gets it. -/
theorem slice_deliveries_panic :
    (run (Guarded.step slices) (.init 0) publishTwice).map (·.panics) = some 1 ∧
      (run (Guarded.step slices) (.init 0) expireTold).any (fun s =>
        decide (s.panics = 1) && s.held &&
          (s.aliased.world.procs 1).any (fun q => q.locks s.aliased.world.table) &&
          (s.step slices (.table (.run 1 .none))).isNone) = true := by
  decide +kernel

end MiddlewareUtils.Reclaim
