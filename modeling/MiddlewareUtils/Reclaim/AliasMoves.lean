import MiddlewareUtils.Lib.Backlinks
import MiddlewareUtils.Reclaim.Alias
import MiddlewareUtils.Reclaim.Moves

/-!
# What a step does to the names

Each lock-held function of `Reclaim.Alias` by the entries it leaves: one
equation for a function that edits one entry, and for a loop the equation
`foldl_update` makes of it. The edits come down to two. An entry is let go
of (`AliasEntry.clear`), or it is bound to an incarnation (`AliasEntry.bind`),
and either way its watchers are told what is published under it now. The
proofs above this file go by these equations and do not look inside the
functions again; `Aliased.Steps` is the same for the machine.
-/

namespace MiddlewareUtils.Reclaim

open Lib Function

variable {C : Type} [DecidableEq C]

/-- The watchers hear `value`. -/
def AliasEntry.tell (x : AliasEntry C) (value : Any C) : AliasEntry C :=
  { x with watchers := x.watchers.map (·.deliverLocked value) }

/-- An entry let go of. -/
def AliasEntry.clear (x : AliasEntry C) : AliasEntry C :=
  ({ x with incarnation := none, publisher := "", group := "" } : AliasEntry C).tell x.empty

/-- An entry published. -/
def AliasEntry.bind (x : AliasEntry C) (tbl : Table (Any C)) (i : ℕ) (publisher group : String) :
    AliasEntry C :=
  let y : AliasEntry C :=
    { x with incarnation := some i, publisher := publisher, group := group }
  y.tell (y.current tbl)

def AliasEntry.join (x : AliasEntry C) (tbl : Table (Any C)) (w : AliasWatcher C) : AliasEntry C :=
  { x with watchers := x.watchers ++ [w.deliverLocked (x.current tbl)] }

theorem AliasEntry.storeWatchersLocked_empty (x : AliasEntry C) :
    x.storeWatchersLocked x.empty = x.tell x.empty := by
  unfold storeWatchersLocked
  rw [ite_self]
  rfl

theorem AliasEntry.storeWatchersLocked_current (x : AliasEntry C) {tbl : Table (Any C)} {i : ℕ}
    (hi : x.incarnation = some i) :
    x.storeWatchersLocked (tbl.slots i).current = x.tell (x.current tbl) := by
  have hcurrent : x.current tbl =
      if isNilValue (tbl.slots i).current then x.empty else (tbl.slots i).current := by
    unfold AliasEntry.current
    rw [hi]
  rw [hcurrent]
  rfl

/-- The entry is held by the publisher in the group. -/
def AliasEntry.HeldBy (x : AliasEntry C) (publisher group : String) : Prop :=
  x.publisher = publisher ∧ x.group = group

instance (x : AliasEntry C) (publisher group : String) : Decidable (x.HeldBy publisher group) :=
  inferInstanceAs (Decidable (_ ∧ _))

namespace AliasTable

/-- The forward and the back links agree. -/
def Links (t : AliasTable C) : Prop := Linked (fun e => (t.entries e).incarnation) t.bound

structure SameNames (t t' : AliasTable C) : Prop where
  aliases : t'.aliases = t.aliases
  nextEntry : t'.nextEntry = t.nextEntry

structure Frame (t t' : AliasTable C) : Prop extends SameNames t t' where
  nextWatcher : t'.nextWatcher = t.nextWatcher

omit [DecidableEq C] in
theorem Frame.rfl {t : AliasTable C} : Frame t t := ⟨⟨Eq.refl _, Eq.refl _⟩, Eq.refl _⟩

omit [DecidableEq C] in
theorem Frame.trans {t t' t'' : AliasTable C} (h : Frame t t') (h' : Frame t' t'') :
    Frame t t'' :=
  ⟨⟨h'.aliases.trans h.aliases, h'.nextEntry.trans h.nextEntry⟩,
    h'.nextWatcher.trans h.nextWatcher⟩

omit [DecidableEq C] in
theorem frame_setEntry (t : AliasTable C) (e : ℕ) (x : AliasEntry C) : Frame t (t.setEntry e x) :=
  ⟨⟨rfl, rfl⟩, rfl⟩

variable (t : AliasTable C)

/-! ## One entry -/

omit [DecidableEq C] in
theorem incarnation_update (e : ℕ) (x : AliasEntry C) :
    (fun f => (update t.entries e x f).incarnation) =
      update (fun f => (t.entries f).incarnation) e x.incarnation := by
  funext f
  by_cases hf : f = e
  · subst hf
    rw [update_self, update_self]
  · rw [update_of_ne hf, update_of_ne hf]

omit [DecidableEq C] in
theorem frame_detachAliasLocked (e : ℕ) : Frame t (t.detachAliasLocked e) := by
  unfold detachAliasLocked
  split <;> exact ⟨⟨rfl, rfl⟩, rfl⟩

omit [DecidableEq C] in
theorem entries_detachAliasLocked (e : ℕ) :
    (t.detachAliasLocked e).entries =
      update t.entries e { t.entries e with incarnation := none } := by
  unfold detachAliasLocked
  split
  next hi =>
    rw [← hi]
    exact (update_eq_self ..).symm
  · rfl

variable {t} in
omit [DecidableEq C] in
theorem Links.detachAliasLocked (h : t.Links) (e : ℕ) : (t.detachAliasLocked e).Links := by
  unfold Links
  rw [entries_detachAliasLocked, incarnation_update]
  unfold AliasTable.detachAliasLocked
  split
  next hi =>
    have hself := update_eq_self e fun f => (t.entries f).incarnation
    rw [hi] at hself
    rw [hself]
    exact h
  next i hi => exact h.detach hi

variable {t} in
omit [DecidableEq C] in
theorem Links.setEntry (h : t.Links) {e : ℕ} {x : AliasEntry C}
    (hx : x.incarnation = (t.entries e).incarnation) : (t.setEntry e x).Links := by
  unfold Links
  show Linked (fun f => (update t.entries e x f).incarnation) t.bound
  rw [incarnation_update, hx, update_eq_self e fun f => (t.entries f).incarnation]
  exact h

theorem frame_clearAliasLocked (e : ℕ) : Frame t (t.clearAliasLocked e) :=
  (t.frame_detachAliasLocked e).trans (frame_setEntry ..)

theorem entries_clearAliasLocked (e : ℕ) :
    (t.clearAliasLocked e).entries = update t.entries e (t.entries e).clear := by
  show update (t.detachAliasLocked e).entries e _ = _
  rw [AliasEntry.storeWatchersLocked_empty, entries_detachAliasLocked, update_idem,
    update_self]
  rfl

variable {t} in
theorem Links.clearAliasLocked (h : t.Links) (e : ℕ) : (t.clearAliasLocked e).Links :=
  (h.detachAliasLocked e).setEntry rfl

/-! ## The loops -/

omit [DecidableEq C] in
theorem entries_foldl {f : AliasTable C → ℕ → AliasTable C}
    {g : ℕ → AliasEntry C → AliasEntry C}
    (hf : ∀ t e, (f t e).entries = update t.entries e (g e (t.entries e)))
    {es : List ℕ} (hes : es.Nodup) (x : ℕ) :
    (es.foldl f t).entries x = if x ∈ es then g x (t.entries x) else t.entries x := by
  have hfold : (es.foldl f t).entries =
      es.foldl (fun h e => update h e (g e (h e))) t.entries := by
    clear hes
    induction es generalizing t with
    | nil => rfl
    | cons e es ih => rw [List.foldl_cons, List.foldl_cons, ih, hf]
  rw [hfold]
  exact foldl_update g hes t.entries x

theorem frame_unbindIncarnationLocked (i : ℕ) : Frame t (t.unbindIncarnationLocked i) :=
  List.foldlRecOn _ _ ⟨⟨rfl, rfl⟩, rfl⟩ fun _ h _ _ => h.trans (frame_setEntry ..)

variable {t} in
theorem entries_unbindIncarnationLocked (h : t.Links) (i e : ℕ) :
    (t.unbindIncarnationLocked i).entries e =
      if (t.entries e).incarnation = some i then (t.entries e).clear else t.entries e := by
  have hone : ∀ (u : AliasTable C) (f : ℕ), (u.unbindEntry f).entries =
      update u.entries f (u.entries f).clear :=
    fun _ _ => congrArg (update _ _) (AliasEntry.storeWatchersLocked_empty _)
  have hloop := entries_foldl (g := fun _ x => x.clear)
    { t with bound := update t.bound i [] } hone (h.nodup i) e
  simp only [h.mem e i] at hloop
  exact hloop

theorem bound_unbindIncarnationLocked (i : ℕ) :
    (t.unbindIncarnationLocked i).bound = update t.bound i [] :=
  List.foldlRecOn (motive := fun u : AliasTable C => u.bound = update t.bound i []) _ _ rfl
    fun _ hu _ _ => hu

variable {t} in
theorem Links.unbindIncarnationLocked (h : t.Links) (i : ℕ) :
    (t.unbindIncarnationLocked i).Links := by
  unfold Links
  rw [bound_unbindIncarnationLocked]
  refine h.cut i fun e => ?_
  rw [entries_unbindIncarnationLocked h]
  simp only [h.mem e i]
  split <;> rfl

section ClearHeld

variable (current : Option ℕ) (publisher group : String) (order : List ℕ)

theorem clearIfHeld_eq (e : ℕ) :
    clearIfHeld current publisher group t e =
      if some e ≠ current ∧ (t.entries e).HeldBy publisher group then t.clearAliasLocked e
      else t := by
  unfold clearIfHeld
  by_cases hheld : some e ≠ current ∧ (t.entries e).HeldBy publisher group
  · obtain ⟨hc, hp, hg⟩ := hheld
    have hclear : ¬ (some e = current ∨ (t.entries e).publisher ≠ publisher ∨
        (t.entries e).group ≠ group) := by
      rintro (h | h | h)
      · exact hc h
      · exact h hp
      · exact h hg
    rw [if_neg hclear, if_pos ⟨hc, hp, hg⟩]
  · rw [if_neg hheld, if_pos]
    by_contra hnot
    push Not at hnot
    exact hheld hnot

theorem frame_clearHeld : Frame t (t.clearHeld current publisher group order) := by
  refine List.foldlRecOn _ _ .rfl fun u hu e _ => hu.trans ?_
  rw [clearIfHeld_eq]
  split
  · exact u.frame_clearAliasLocked e
  · exact .rfl

variable {t} in
theorem Links.clearHeld (h : t.Links) : (t.clearHeld current publisher group order).Links := by
  refine List.foldlRecOn (motive := Links) _ _ h fun u hu e _ => ?_
  rw [clearIfHeld_eq]
  split
  · exact hu.clearAliasLocked e
  · exact hu

variable {order} in
theorem entries_clearHeld (hnodup : order.Nodup) (e : ℕ) :
    (t.clearHeld current publisher group order).entries e =
      if e ∈ order ∧ some e ≠ current ∧ (t.entries e).HeldBy publisher group then
        (t.entries e).clear
      else t.entries e := by
  have hone : ∀ (u : AliasTable C) (f : ℕ), (clearIfHeld current publisher group u f).entries =
      update u.entries f
        (if some f ≠ current ∧ (u.entries f).HeldBy publisher group then (u.entries f).clear
        else u.entries f) := by
    intro u f
    rw [clearIfHeld_eq]
    split
    · exact u.entries_clearAliasLocked f
    · exact (update_eq_self ..).symm
  have hloop := entries_foldl (g := fun f x =>
    if some f ≠ current ∧ x.HeldBy publisher group then x.clear else x) t hone hnodup e
  refine hloop.trans ?_
  by_cases he : e ∈ order
  · simp only [he, if_true, true_and]
  · simp only [he, if_false, false_and]

end ClearHeld

/-! ## Publishing and watching -/

def target (t : AliasTable C) (name : String) : ℕ := (t.aliases name).getD t.nextEntry

/-- The entry itself. -/
def base (t : AliasTable C) (name : String) (empty : Any C) : AliasEntry C :=
  match t.aliases name with
  | some e => t.entries e
  | none => .fresh name empty

omit [DecidableEq C] in
theorem entryOf_snd (name : String) (empty : Any C) :
    (t.entryOf name empty).2 = t.target name := by
  unfold entryOf target
  cases t.aliases name <;> rfl

omit [DecidableEq C] in
theorem entries_entryOf (name : String) (empty : Any C) :
    (t.entryOf name empty).1.entries =
      update t.entries (t.target name) (t.base name empty) := by
  unfold entryOf target base
  cases t.aliases name with
  | none => rfl
  | some e => exact (update_eq_self e t.entries).symm

omit [DecidableEq C] in
theorem aliases_entryOf (name : String) (empty : Any C) :
    (t.entryOf name empty).1.aliases =
      update t.aliases name (some (t.target name)) := by
  unfold entryOf target
  cases hname : t.aliases name with
  | none => rfl
  | some e =>
    show t.aliases = update t.aliases name (some e)
    rw [← hname, update_eq_self]

omit [DecidableEq C] in
theorem entries_rebind (e i : ℕ) :
    (t.rebind e i).entries =
      update t.entries e { t.entries e with incarnation := some i } := by
  unfold rebind
  split
  next hi =>
    rw [← hi]
    exact (update_eq_self ..).symm
  · show update (t.detachAliasLocked e).entries e _ = _
    rw [entries_detachAliasLocked, update_idem, update_self]

omit [DecidableEq C] in
theorem frame_rebind (e i : ℕ) : Frame t (t.rebind e i) := by
  unfold rebind
  split
  · exact .rfl
  · exact (t.frame_detachAliasLocked e).trans ⟨⟨rfl, rfl⟩, rfl⟩

variable {t} in
omit [DecidableEq C] in
theorem Links.rebind (h : t.Links) (e i : ℕ) : (t.rebind e i).Links := by
  unfold AliasTable.rebind
  split
  · exact h
  · have hfree : ((t.detachAliasLocked e).entries e).incarnation = none := by
      rw [entries_detachAliasLocked, update_self]
    have hlinks := (h.detachAliasLocked e).attach hfree i
    unfold Links
    show Linked (fun f => (update (t.detachAliasLocked e).entries e _ f).incarnation) _
    rw [incarnation_update]
    exact hlinks

omit [DecidableEq C] in
theorem named_nodup : t.named.Nodup := List.nodup_range.filter _

omit [DecidableEq C] in
theorem mem_named {e : ℕ} :
    e ∈ t.named ↔ e < t.nextEntry ∧ t.aliases (t.entries e).name = some e := by
  unfold named
  rw [List.mem_filter, List.mem_range, decide_eq_true_iff]

section Publish

variable (tbl : Table (Any C)) (i : ℕ) (name publisher group : String) {order : List ℕ}

theorem target_clearHeld :
    (t.clearHeld (t.aliases name) publisher group order).target name = t.target name := by
  have hframe := t.frame_clearHeld (t.aliases name) publisher group order
  unfold target
  rw [hframe.aliases, hframe.nextEntry]

theorem base_clearHeld (hnodup : order.Nodup) (empty : Any C) :
    (t.clearHeld (t.aliases name) publisher group order).base name empty =
      t.base name empty := by
  unfold base
  rw [(t.frame_clearHeld (t.aliases name) publisher group order).aliases]
  cases hname : t.aliases name with
  | none => rfl
  | some e => exact (t.entries_clearHeld _ _ _ hnodup e).trans (if_neg fun h => h.2.1 rfl)

theorem entries_publish (hnodup : order.Nodup) :
    (t.publish tbl i name publisher group order).entries =
      update (t.clearHeld (t.aliases name) publisher group order).entries
        (t.target name) ((t.base name .nil).bind tbl i publisher group) := by
  unfold publish
  dsimp only
  rw [entryOf_snd, target_clearHeld]
  generalize hu : t.clearHeld (t.aliases name) publisher group order = u
  have hentry : ((u.entryOf name .nil).1.rebind (t.target name) i).entries =
      update u.entries (t.target name)
        { t.base name .nil with incarnation := some i } := by
    rw [entries_rebind, entries_entryOf, ← hu, target_clearHeld, base_clearHeld t name _ _ hnodup,
      update_idem, update_self]
  show update ((u.entryOf name .nil).1.rebind (t.target name) i).entries _ _ = _
  rw [hentry, update_idem, update_self,
    AliasEntry.storeWatchersLocked_current _ rfl]
  rfl

theorem frame_publish :
    Frame ((t.clearHeld (t.aliases name) publisher group order).entryOf name .nil).1
      (t.publish tbl i name publisher group order) :=
  (frame_rebind ..).trans (frame_setEntry ..)

theorem aliases_publish :
    (t.publish tbl i name publisher group order).aliases =
      update t.aliases name (some (t.target name)) := by
  have hframe := t.frame_clearHeld (t.aliases name) publisher group order
  rw [(t.frame_publish tbl i name publisher group).aliases, aliases_entryOf, target_clearHeld,
    hframe.aliases]

variable {t} in
omit [DecidableEq C] in
theorem Links.entryOf (h : t.Links) (hnew : (t.entries t.nextEntry).incarnation = none)
    (empty : Any C) : (t.entryOf name empty).1.Links := by
  unfold AliasTable.entryOf
  split
  · exact h
  · exact h.setEntry hnew.symm

variable {t} in
theorem Links.publish (h : t.Links) (hnew : (t.entries t.nextEntry).incarnation = none)
    (hnodup : order.Nodup) : (t.publish tbl i name publisher group order).Links := by
  have hframe := t.frame_clearHeld (t.aliases name) publisher group order
  refine (Links.rebind (Links.entryOf name (h.clearHeld ..) ?_ _) ..).setEntry rfl
  rw [hframe.nextEntry, entries_clearHeld _ _ _ _ hnodup]
  split
  · rfl
  · exact hnew

end Publish

section Watch

variable (tbl : Table (Any C)) (name : String) (empty : Any C) (changed : Option Callback)

omit [DecidableEq C] in
theorem nextWatcher_entryOf : (t.entryOf name empty).1.nextWatcher = t.nextWatcher := by
  unfold entryOf
  cases t.aliases name <;> rfl

theorem entries_watch (hname : name ≠ "") :
    (t.watch tbl name empty changed).entries =
      update t.entries (t.target name)
        (((t.base name empty).stick empty).join tbl ⟨t.nextWatcher, changed, .nil, []⟩) := by
  unfold watch
  rw [if_neg hname]
  dsimp only
  rw [entryOf_snd, nextWatcher_entryOf]
  show update (t.entryOf name empty).1.entries _ _ = _
  rw [entries_entryOf, update_idem, update_self]
  rfl

theorem sameNames_watch (hname : name ≠ "") :
    SameNames (t.entryOf name empty).1 (t.watch tbl name empty changed) := by
  unfold watch
  rw [if_neg hname]
  exact ⟨rfl, rfl⟩

theorem aliases_watch (hname : name ≠ "") :
    (t.watch tbl name empty changed).aliases =
      update t.aliases name (some (t.target name)) := by
  rw [(t.sameNames_watch tbl name empty changed hname).aliases, aliases_entryOf]

theorem bound_watch (hname : name ≠ "") {e i : ℕ}
    (hi : ((t.watch tbl name empty changed).entries e).incarnation = some i) :
    ∃ f, (t.entries f).incarnation = some i := by
  rw [t.entries_watch tbl name empty changed hname] at hi
  by_cases he : e = t.target name
  · have hbase : (t.base name empty).incarnation = some i := by
      rw [he, update_self] at hi
      unfold AliasEntry.stick at hi
      split at hi <;> exact hi
    unfold base at hbase
    split at hbase
    next f _ => exact ⟨f, hbase⟩
    · cases hbase
  · rw [update_of_ne he] at hi
    exact ⟨e, hi⟩

theorem nextWatcher_watch (hname : name ≠ "") :
    (t.watch tbl name empty changed).nextWatcher = t.nextWatcher + 1 := by
  unfold watch
  rw [if_neg hname]
  exact congrArg (· + 1) (t.nextWatcher_entryOf name empty)

variable {t} in
theorem Links.watch (h : t.Links) (hnew : (t.entries t.nextEntry).incarnation = none) :
    (t.watch tbl name empty changed).Links := by
  unfold AliasTable.watch
  split
  · exact h
  · refine (Links.entryOf name h hnew empty).setEntry ?_
    unfold AliasEntry.stick
    split <;> rfl

end Watch

omit [DecidableEq C] in
theorem frame_dropWatcher (name : String) (w : ℕ) : Frame t (t.dropWatcher name w) := by
  unfold dropWatcher
  split
  · exact .rfl
  · exact frame_setEntry ..

variable {t} in
omit [DecidableEq C] in
theorem Links.dropWatcher (h : t.Links) (name : String) (w : ℕ) : (t.dropWatcher name w).Links := by
  unfold AliasTable.dropWatcher
  split
  · exact h
  · exact h.setEntry rfl

omit [DecidableEq C] in
theorem entries_dropWatcher (name : String) (w e : ℕ) :
    (t.dropWatcher name w).entries e = if t.aliases name = some e then
      { t.entries e with watchers := (t.entries e).watchers.filter fun x => x.id ≠ w }
      else t.entries e := by
  unfold dropWatcher
  cases hname : t.aliases name with
  | none => rfl
  | some f =>
    by_cases hf : e = f
    · subst hf
      rw [if_pos rfl]
      exact update_self ..
    · rw [if_neg fun h => hf (Option.some.inj h).symm]
      exact update_of_ne hf ..

omit [DecidableEq C] in
theorem publishable_some {tbl : Table (Any C)} {key : String} {i : ℕ}
    (h : publishable tbl key = some i) : tbl.items key = some i ∧
      ((tbl.slots i).state = .awake ∨ (tbl.slots i).state = .asleep) := by
  unfold publishable at h
  split at h
  · cases h
  next j hj =>
    split at h
    · cases h
    next hs =>
      injection h with h
      subst h
      refine ⟨hj, ?_⟩
      by_contra hnot
      push Not at hnot
      exact hs hnot

end AliasTable

/-! ## Steps of the machine -/

namespace Aliased

inductive Steps (s : Aliased C) : AliasAction C → Aliased C → Prop
  /-- A step of the table that is no process's. -/
  | quiet {a w} (hs : s.world.step a = some w) (hpc : pcOf s.world a = none) :
      Steps s (.table a) { s with world := w }
  | run {p inp w caller pc} (hs : s.world.step (.run p inp) = some w)
      (hp : s.world.procs p = some ⟨caller, pc⟩) :
      Steps s (.table (.run p inp)) { s with
        world := w
        names := s.names.endings s.world.table pc
        disposing := s.noteDispose p pc }
  /-- `SetAlias` fails, or is called without a name or a key. -/
  | refused {key name publisher group order}
      (h : name = "" ∨ key = "" ∨ s.aliasError key name publisher group order ≠ none) :
      Steps s (.setAlias key name publisher group order) s
  | publish {key name publisher group order i} (hname : name ≠ "")
      (hi : AliasTable.publishable s.world.table key = some i)
      (hrival : s.names.rival name publisher = none) (hperm : order.Perm s.names.named)
      (hok : s.aliasError key name publisher group order = none) :
      Steps s (.setAlias key name publisher group order) { s with
        names := s.names.publish s.world.table i name publisher group order }
  | watchNone {ctx empty changed} : Steps s (.watch ctx "" empty changed) s
  | watch {ctx name empty changed} (hname : name ≠ "") :
      Steps s (.watch ctx name empty changed) { s with
        names := s.names.watch s.world.table name empty changed
        drops := update s.drops s.names.nextWatcher (some (ctx, name)) }
  | dropWatcher {w ctx name} (hd : s.drops w = some (ctx, name)) :
      Steps s (.dropWatcher w) { s with
        names := s.names.dropWatcher name w
        drops := update s.drops w none }
  | clearNone {publisher group order} (h : publisher = "" ∨ group = "") :
      Steps s (.clearPublisher publisher group order) s
  | clear {publisher group order} (hpub : publisher ≠ "") (hperm : order.Perm s.names.named) :
      Steps s (.clearPublisher publisher group order) { s with
        names := s.names.clearHeld none publisher group order }
  | unbind {p i caller} (hd : s.disposing p = some i)
      (hp : s.world.procs p = some ⟨caller, .finished⟩) :
      Steps s (.unbind p) { s with
        names := s.names.unbindIncarnationLocked i
        disposing := update s.disposing p none }

omit [DecidableEq C] in
theorem noteDispose_eq (s : Aliased C) (p q : ℕ) (pc : Pc (Any C)) :
    s.noteDispose p pc q =
      (if q = p then pc.disposes s.world.table else none).or (s.disposing q) := by
  unfold noteDispose
  cases pc.disposes s.world.table with
  | none =>
    rw [ite_self]
    rfl
  | some i =>
    by_cases hq : q = p
    · subst hq
      rw [if_pos rfl]
      exact update_self ..
    · rw [if_neg hq]
      exact update_of_ne hq ..

theorem step_cases {s s' : Aliased C} {a : AliasAction C} (h : s.step a = some s') :
    s.Steps a s' := by
  cases a with
  | table a =>
    obtain ⟨w, hs, hw⟩ := Option.map_eq_some_iff.mp h
    split at hw
    next hpc =>
      subst hw
      exact .quiet hs hpc
    next p pc hpc =>
      cases a with
      | run q inp =>
        obtain ⟨⟨caller, pc'⟩, hp, heq⟩ := Option.map_eq_some_iff.mp hpc
        cases heq
        subst hw
        exact .run hs hp
      | _ => cases hpc
  | setAlias key name publisher group order =>
    simp only [step] at h
    split at h
    next hperm =>
      injection h with h
      subst h
      by_cases hnone : name = "" ∨ key = ""
      · have hset : s.names.setAlias s.world.table key name publisher group order =
          (s.names, none) := if_pos hnone
        rw [hset]
        exact .refused (hnone.imp_right Or.inl)
      · have hset : ∀ err, s.names.setAlias s.world.table key name publisher group order =
            (s.names, some err) → s.Steps (.setAlias key name publisher group order) { s with
              names := (s.names.setAlias s.world.table key name publisher group order).1 } := by
          intro err herr
          rw [herr]
          refine .refused (Or.inr (Or.inr ?_))
          rw [aliasError, herr]
          exact Option.some_ne_none err
        cases hi : AliasTable.publishable s.world.table key with
        | none =>
          refine hset (.noMappedKey name key) ?_
          rw [AliasTable.setAlias, if_neg hnone, hi]
        | some i =>
          cases hrival : s.names.rival name publisher with
          | some holder =>
            refine hset (.held name holder publisher) ?_
            rw [AliasTable.setAlias, if_neg hnone, hi]
            dsimp only
            rw [hrival]
          | none =>
            have hok : s.names.setAlias s.world.table key name publisher group order =
                (s.names.publish s.world.table i name publisher group order, none) := by
              rw [AliasTable.setAlias, if_neg hnone, hi]
              dsimp only
              rw [hrival]
            rw [hok]
            exact .publish (fun hn => hnone (Or.inl hn)) hi hrival
              (List.isPerm_iff.mp hperm) (congrArg Prod.snd hok)
    · cases h
  | watch ctx name empty changed =>
    cases h
    by_cases hname : name = ""
    · subst hname
      have hnone : s.names.watch s.world.table "" empty changed = s.names := if_pos rfl
      rw [hnone, if_pos rfl]
      exact .watchNone
    · rw [if_neg hname]
      exact .watch hname
  | dropWatcher w =>
    simp only [step, runDrop] at h
    split at h
    · cases h
    next ctx name hd =>
      split at h
      · cases h
        exact .dropWatcher hd
      · cases h
  | clearPublisher publisher group order =>
    simp only [step] at h
    split at h
    next hperm =>
      injection h with h
      subst h
      by_cases hnone : publisher = "" ∨ group = ""
      · rw [AliasTable.clearPublisher, if_pos hnone]
        exact .clearNone hnone
      · rw [AliasTable.clearPublisher, if_neg hnone]
        exact .clear (fun hp => hnone (Or.inl hp)) (List.isPerm_iff.mp hperm)
    · cases h
  | unbind p =>
    simp only [step, runUnbind] at h
    split at h
    next hd hp =>
      cases h
      exact .unbind hd hp
    · cases h

end Aliased

end MiddlewareUtils.Reclaim
