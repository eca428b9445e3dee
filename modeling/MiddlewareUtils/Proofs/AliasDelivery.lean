import MiddlewareUtils.Lib.Notice
import MiddlewareUtils.Proofs.AliasGraph
import MiddlewareUtils.Proofs.ReclaimMapping

/-!
# What a watcher hears

Deliveries come from six places, and each of them tells the watchers of an
entry what it thinks is published now. The watcher compares with what it was
told last. Whether it hears every change and nothing else is a question
about the history of bindings, and the answer is one line: after every
lock-held step, whatever it was, each watcher of the name is what it was
before, told the published value (`DeliveryInv.told`). Where the code
delivers nothing the published value has not changed, and telling a watcher
the value it has is doing nothing. The history then only has to be followed
by `Lib.Notice`, one entry at a time.

Two facts make the published value stand still between deliveries. The value
of an incarnation does not change once a name is bound to it, because
nothing creates a slot that was found awake or asleep. And the value that
stands in when nothing is published does not change once there is a watcher,
because every Watch of the name brings the same one.
-/

namespace MiddlewareUtils.Reclaim

open Lib Function

variable {C : Type}

/-! ## The same value -/

def Any.canon : Any C → Any C
  | typedNil => nil
  | v => v

def Any.Same (v v' : Any C) : Prop := v.canon = v'.canon

instance [DecidableEq C] : DecidableRel (Any.Same : Any C → Any C → Prop) :=
  fun _ _ => inferInstanceAs (Decidable (_ = _))

theorem Any.same_equivalence : Equivalence (Any.Same : Any C → Any C → Prop) :=
  ⟨fun _ => rfl, fun h => h.symm, fun h h' => h.trans h'⟩

variable [DecidableEq C]

theorem sameValue_iff {v v' : Any C} : sameValue v v' = true ↔ v.Same v' := by
  unfold Any.Same
  cases v <;> cases v' <;> simp [sameValue, isNilValue, Any.canon]

/-! ## One watcher -/

/-- The watcher has heard the changes of the history, and has its last value. -/
def AliasWatcher.Heard (w : AliasWatcher C) (history : List (Any C)) : Prop :=
  ∃ notices, Notified Any.Same .nil w.last notices history ∧
    w.calls.map Prod.fst = if w.changed.isSome then notices else []

theorem AliasWatcher.heard_new (id : ℕ) (changed : Option Callback) :
    (⟨id, changed, .nil, []⟩ : AliasWatcher C).Heard [] :=
  ⟨[], .start Any.same_equivalence .nil, (ite_self _).symm⟩

theorem AliasWatcher.deliverLocked_of_same {w : AliasWatcher C} {v : Any C}
    (h : w.last.Same v) : w.deliverLocked v = w :=
  if_pos (sameValue_iff.mpr h)

theorem AliasWatcher.deliverLocked_id (w : AliasWatcher C) (v : Any C) :
    (w.deliverLocked v).id = w.id := by
  unfold deliverLocked
  split
  · rfl
  · split <;> rfl

theorem AliasWatcher.last_deliverLocked (w : AliasWatcher C) (v : Any C) :
    (w.deliverLocked v).last.Same v := by
  unfold deliverLocked
  split
  next h => exact sameValue_iff.mp h
  · split <;> rfl

theorem AliasWatcher.Heard.deliverLocked {w : AliasWatcher C} {history : List (Any C)}
    (h : w.Heard history) (v : Any C) : (w.deliverLocked v).Heard (history ++ [v]) := by
  obtain ⟨notices, hn, hcalls⟩ := h
  by_cases hv : w.last.Same v
  · rw [deliverLocked_of_same hv]
    exact ⟨notices, hn.hold Any.same_equivalence hv, hcalls⟩
  · refine ⟨notices ++ [v], ?_⟩
    have hnew := hn.hear Any.same_equivalence hv
    unfold AliasWatcher.deliverLocked
    rw [if_neg fun hs => hv (sameValue_iff.mp hs)]
    cases hc : w.changed with
    | none =>
      rw [hc] at hcalls
      exact ⟨hnew, hcalls⟩
    | some changed =>
      rw [hc] at hcalls
      refine ⟨hnew, ?_⟩
      show (w.calls ++ [_]).map Prod.fst = notices ++ [v]
      rw [List.map_append, hcalls]
      rfl

/-! ## The published value -/

namespace Aliased

/-- The watchers of a name. -/
def watchersOf (s : Aliased C) (name : String) : List (AliasWatcher C) :=
  match s.names.aliases name with
  | none => []
  | some e => (s.names.entries e).watchers

/-- What is published under a name: the value of the incarnation bound to it,
or `empty` when there is none or its value is nil. -/
def published (s : Aliased C) (name : String) (empty : Any C) : Any C :=
  match (s.names.aliases name).bind fun e => (s.names.entries e).incarnation with
  | none => empty
  | some i =>
    let value := (s.world.table.slots i).current
    if isNilValue value then empty else value

omit [DecidableEq C] in
theorem published_eq {s : Aliased C} {name : String} {e : ℕ}
    (he : s.names.aliases name = some e) :
    s.published name (s.names.entries e).empty = (s.names.entries e).current s.world.table := by
  unfold published AliasEntry.current
  rw [he]
  rfl

end Aliased

/-- The run remembers, for every watcher of `name`, what was published under
it after each step since the watcher was registered. -/
structure Listening (C : Type) where
  aliased : Aliased C
  history : ℕ → List (Any C)

namespace Listening

def init (grace : ℤ) : Listening C := ⟨.init grace, fun _ => []⟩

/-- After each step every watcher of the name is noted what is published. -/
def step (name : String) (empty : Any C) (s : Listening C) (a : AliasAction C) :
    Option (Listening C) :=
  (s.aliased.step a).map fun s' =>
    ⟨s', fun w =>
      if w ∈ (s'.watchersOf name).map AliasWatcher.id then
        s.history w ++ [s'.published name empty]
      else s.history w⟩

end Listening

def AliasAction.isReset : AliasAction C → Bool
  | table a => a.isReset
  | _ => false

/-- A Watch of `name` passes `empty`. -/
def AliasAction.watches (name : String) (empty : Any C) : AliasAction C → Bool
  | watch _ name' empty' _ => name' ≠ name ∨ empty' = empty
  | _ => true

/-! ## What a step does to the entry of a name -/

inductive Entered (s s' : Aliased C) (name : String) (empty : Any C) : AliasEntry C → Prop
  | same {e} (he : s.names.aliases name = some e) :
      Entered s s' name empty (s.names.entries e)
  | cleared {e} (he : s.names.aliases name = some e) :
      Entered s s' name empty (s.names.entries e).clear
  | bound {i publisher group} (hworld : s'.world = s.world) :
      Entered s s' name empty
        ((s.names.base name .nil).bind s.world.table i publisher group)
  | joined {changed} (hworld : s'.world = s.world)
      (hnext : s'.names.nextWatcher = s.names.nextWatcher + 1) :
      Entered s s' name empty (((s.names.base name empty).stick empty).join s.world.table
        ⟨s.names.nextWatcher, changed, .nil, []⟩)
  | dropped {e w} (he : s.names.aliases name = some e) :
      Entered s s' name empty { s.names.entries e with
        watchers := (s.names.entries e).watchers.filter fun x => x.id ≠ w }

omit [DecidableEq C] in
theorem NamesInv.target_ne {t : AliasTable C} (h : NamesInv t) {name name' : String} {e : ℕ}
    (he : t.aliases name = some e) (hne : name ≠ name') : e ≠ t.target name' := by
  obtain ⟨hlt, hname⟩ := h.named name e he
  unfold AliasTable.target
  cases hother : t.aliases name' with
  | none => exact hlt.ne
  | some f =>
    rintro rfl
    exact hne (hname.symm.trans (h.named name' e hother).2)

theorem NamesInv.entered {s s' : Aliased C} {a : AliasAction C} (h : NamesInv s.names)
    (hs : s.step a = some s') {name : String} {empty : Any C} (hw : a.watches name empty = true)
    {e : ℕ} (he : s'.names.aliases name = some e) :
    Entered s s' name empty (s'.names.entries e) := by
  -- The loops and the endings clear the entry or leave it.
  have hclear : ∀ {P : Prop} [Decidable P] {x : AliasEntry C}, s.names.aliases name = some e →
      x = (if P then (s.names.entries e).clear else s.names.entries e) →
      Entered s s' name empty x := by
    rintro P _ x he rfl
    split
    · exact .cleared he
    · exact .same he
  -- Another name's entry is another entry.
  have hother : ∀ {name' : String}, name ≠ name' →
      update s.names.aliases name' (some (s.names.target name')) name = some e →
      s.names.aliases name = some e ∧ e ≠ s.names.target name' := by
    intro name' hne hupd
    rw [update_of_ne hne] at hupd
    exact ⟨hupd, h.target_ne hupd hne⟩
  cases Aliased.step_cases hs with
  | quiet | refused | watchNone | clearNone => exact .same he
  | run =>
    exact hclear (AliasTable.aliases_endings _ _ he) (AliasTable.entries_endings _ _ h.links e)
  | @publish key name' publisher group order i _ _ _ hperm =>
    have hnodup := hperm.nodup_iff.mpr s.names.named_nodup
    have hentries := s.names.entries_publish s.world.table i name' publisher group hnodup
    have he' := (congrFun (s.names.aliases_publish ..) name).symm.trans he
    by_cases hne : name = name'
    · subst hne
      rw [update_self] at he'
      obtain rfl := Option.some.inj he'
      have hself := (congrFun hentries (s.names.target name)).trans (update_self ..)
      exact Eq.mpr (congrArg _ hself) (.bound rfl)
    · obtain ⟨hold, htarget⟩ := hother hne he'
      exact hclear hold (((congrFun hentries e).trans (update_of_ne htarget ..)).trans
        (s.names.entries_clearHeld _ _ _ hnodup e))
  | @watch ctx name' empty' changed hname =>
    have hentries := s.names.entries_watch s.world.table name' empty' changed hname
    have he' := (congrFun (s.names.aliases_watch s.world.table name' empty' changed hname)
      name).symm.trans he
    by_cases hne : name = name'
    · subst hne
      obtain rfl : empty' = empty := by simpa [AliasAction.watches] using hw
      rw [update_self] at he'
      obtain rfl := Option.some.inj he'
      have hself := (congrFun hentries (s.names.target name)).trans (update_self ..)
      exact Eq.mpr (congrArg _ hself)
        (.joined rfl (s.names.nextWatcher_watch _ _ _ _ hname))
    · obtain ⟨hold, htarget⟩ := hother hne he'
      have hsame := (congrFun hentries e).trans (update_of_ne htarget ..)
      exact Eq.mpr (congrArg _ hsame) (.same hold)
  | @dropWatcher w ctx name' _ =>
    have hold := (congrFun (s.names.frame_dropWatcher name' w).aliases name).symm.trans he
    have hentry := s.names.entries_dropWatcher name' w e
    by_cases hdrop : s.names.aliases name' = some e
    · rw [if_pos hdrop] at hentry
      exact Eq.mpr (congrArg _ hentry) (.dropped hold)
    · rw [if_neg hdrop] at hentry
      exact Eq.mpr (congrArg _ hentry) (.same hold)
  | clear _ hperm =>
    exact hclear ((congrFun (s.names.frame_clearHeld ..).aliases name).symm.trans he)
      (s.names.entries_clearHeld _ _ _ (hperm.nodup_iff.mpr s.names.named_nodup) e)
  | unbind =>
    exact hclear ((congrFun (s.names.frame_unbindIncarnationLocked _).aliases name).symm.trans he)
      (AliasTable.entries_unbindIncarnationLocked h.links _ e)

/-! ## Between deliveries -/

/-- What keeps the published value of `name` still: bound slots are created,
and a name with watchers has its `empty`. -/
structure SteadyInv (name : String) (empty : Any C) (s : Aliased C) : Prop where
  mapped : MappedInv s.world
  names : NamesInv s.names
  made : ∀ e i, (s.names.entries e).incarnation = some i → i < s.world.table.nextSlot ∧
    ∀ p q, s.world.procs p = some q → q.pc.fills ≠ some i
  stands : ∀ e, s.names.aliases name = some e → (s.names.entries e).empty = empty ∨
    (s.names.entries e).empty = .nil ∧ (s.names.entries e).watchers = []

namespace SteadyInv

variable {name : String} {empty : Any C} {s s' : Aliased C} {a : AliasAction C}

omit [DecidableEq C] in
theorem init (grace : ℤ) : SteadyInv name empty (Aliased.init grace) where
  mapped := .init grace
  names := .new
  made := nofun
  stands := nofun

omit [DecidableEq C] in
theorem made_of_publishable (h : SteadyInv name empty s) {key : String} {i : ℕ}
    (hi : AliasTable.publishable s.world.table key = some i) :
    i < s.world.table.nextSlot ∧ ∀ p q, s.world.procs p = some q → q.pc.fills ≠ some i := by
  obtain ⟨hkey, hst⟩ := AliasTable.publishable_some hi
  refine ⟨(h.mapped.mapping.keyed key i hkey).1, fun p q hp hc => ?_⟩
  obtain ⟨phs, hclaim⟩ := Pc.claim_of_fills hc
  have hbusy : (s.world.table.slots i).state = .busy :=
    (h.mapped.owners.meets hp hclaim).1
  rcases hst with hst | hst <;> rw [hst] at hbusy <;> cases hbusy

omit [DecidableEq C] in
theorem made_world (h : SteadyInv name empty s) {b : Action (Any C)} {w : World (Any C)}
    (hw : s.world.step b = some w) {e i : ℕ} (hi : (s.names.entries e).incarnation = some i) :
    (i < w.table.nextSlot ∧ ∀ p q, w.procs p = some q → q.pc.fills ≠ some i) ∧
      (w.table.slots i).value = (s.world.table.slots i).value := by
  obtain ⟨hlt, hcreate⟩ := h.made e i hi
  have hspawn : ∀ {n : ℕ} {x : Proc (Any C)}, x.pc.fills ≠ some i → ∀ p q,
      update s.world.procs n (some x) p = some q → q.pc.fills ≠ some i := by
    intro n x hx p q hq
    rcases update_eq_some hq with ⟨_, rfl⟩ | ⟨_, hq⟩
    · exact hx
    · exact hcreate p q hq
  cases World.step_cases hw with
  | openKey | reset | fire => exact ⟨⟨hlt, hspawn nofun⟩, rfl⟩
  | cancel | tick => exact ⟨⟨hlt, hcreate⟩, rfl⟩
  | run hp hm =>
    refine ⟨⟨hlt.trans_le hm.nextSlot_le, hspawn fun hc => ?_⟩, hm.value hlt (hcreate _ _ hp)⟩
    exact (hm.fills_back hc).elim (hcreate _ _ hp) hlt.ne

theorem current_step (h : SteadyInv name empty s) (hs : s.step a = some s') (e : ℕ) :
    (s.names.entries e).current s'.world.table = (s.names.entries e).current s.world.table := by
  have hcurrent : ∀ {b w}, s.world.step b = some w →
      (s.names.entries e).current w.table = (s.names.entries e).current s.world.table := by
    intro b w hw
    unfold AliasEntry.current
    cases hi : (s.names.entries e).incarnation with
    | none => rfl
    | some i =>
      dsimp only
      rw [Slot.current, (h.made_world hw hi).2]
      rfl
  cases Aliased.step_cases hs with
  | quiet hw | run hw => exact hcurrent hw
  | _ => rfl

omit [DecidableEq C] in
theorem stands_base (h : SteadyInv name empty s) {v : Any C} (hv : v = .nil ∨ v = empty) :
    (s.names.base name v).empty = empty ∨
      (s.names.base name v).empty = .nil ∧ (s.names.base name v).watchers = [] := by
  unfold AliasTable.base
  split
  next f hf => exact h.stands f hf
  · exact hv.symm.imp id fun hnil => ⟨hnil, rfl⟩

theorem stick_base (h : SteadyInv name empty s) :
    ((s.names.base name empty).stick empty).empty = empty := by
  unfold AliasEntry.stick
  split
  · rfl
  next hkeep =>
    rcases h.stands_base (Or.inr rfl) with hsame | hnil
    · exact hsame
    · by_contra hne
      exact hkeep ⟨hnil.1, fun he => hne (hnil.1.trans he.symm)⟩

theorem step (h : SteadyInv name empty s) (ha : a.isReset = false)
    (hw : a.watches name empty = true) (hs : s.step a = some s') : SteadyInv name empty s' := by
  refine ⟨?_, h.names.step hs, fun e i hi => ?_, fun e he => ?_⟩
  · cases Aliased.step_cases hs with
    | quiet hb => exact h.mapped.step ha hb
    | run hb => exact h.mapped.step rfl hb
    | _ => exact h.mapped
  · rcases h.names.bound_step hs hi with ⟨f, hf⟩ | ⟨hworld, key, hkey⟩
    · cases Aliased.step_cases hs with
      | quiet hb | run hb => exact (h.made_world hb hf).1
      | _ => exact h.made f i hf
    · rw [hworld]
      exact h.made_of_publishable hkey
  · have hentered := h.names.entered hs hw he
    generalize s'.names.entries e = x at hentered
    cases hentered with
    | same hold => exact h.stands _ hold
    | cleared hold =>
      refine (h.stands _ hold).imp id fun hnil => ⟨hnil.1, ?_⟩
      show List.map _ _ = []
      rw [hnil.2]
      rfl
    | dropped hold =>
      refine (h.stands _ hold).imp id fun hnil => ⟨hnil.1, ?_⟩
      show List.filter _ _ = []
      rw [hnil.2]
      rfl
    | bound =>
      refine (h.stands_base (Or.inl rfl)).imp id fun hnil => ⟨hnil.1, ?_⟩
      show List.map _ (s.names.base name .nil).watchers = []
      rw [hnil.2]
      rfl
    | joined => exact .inl h.stick_base

omit [DecidableEq C] in
theorem watchersOf_eq {s : Aliased C} {e : ℕ} (he : s.names.aliases name = some e) :
    s.watchersOf name = (s.names.entries e).watchers := by
  unfold Aliased.watchersOf
  rw [he]

omit [DecidableEq C] in
theorem published_of_watched (h : SteadyInv name empty s) {e : ℕ}
    (he : s.names.aliases name = some e) {w : AliasWatcher C}
    (hw : w ∈ (s.names.entries e).watchers) :
    (s.names.entries e).empty = empty ∧
      s.published name empty = (s.names.entries e).current s.world.table := by
  have hempty : (s.names.entries e).empty = empty := by
    refine (h.stands e he).resolve_right fun hnil => ?_
    rw [hnil.2] at hw
    cases hw
  exact ⟨hempty, hempty ▸ Aliased.published_eq he⟩

omit [DecidableEq C] in
theorem mem_base {v : Any C} {w : AliasWatcher C} (hw : w ∈ (s.names.base name v).watchers) :
    ∃ e, s.names.aliases name = some e ∧ s.names.base name v = s.names.entries e := by
  cases he : s.names.aliases name with
  | none =>
    rw [AliasTable.base, he] at hw
    cases hw
  | some e => exact ⟨e, rfl, by rw [AliasTable.base, he]⟩

theorem told (h : SteadyInv name empty s) (h' : SteadyInv name empty s')
    (hs : s.step a = some s') (hw : a.watches name empty = true)
    (hlast : ∀ w ∈ s.watchersOf name, w.last.Same (s.published name empty))
    {w' : AliasWatcher C} (hw' : w' ∈ s'.watchersOf name) :
    ∃ w : AliasWatcher C, w' = w.deliverLocked (s'.published name empty) ∧
      (w ∈ s.watchersOf name ∨ s'.names.nextWatcher = s.names.nextWatcher + 1 ∧
        ∃ changed, w = ⟨s.names.nextWatcher, changed, .nil, []⟩) := by
  obtain ⟨e, he⟩ : ∃ e, s'.names.aliases name = some e := by
    unfold Aliased.watchersOf at hw'
    split at hw'
    · cases hw'
    next e he => exact ⟨e, he⟩
  rw [watchersOf_eq he] at hw'
  obtain ⟨hempty, hpub⟩ := h'.published_of_watched he hw'
  have hentered := h.names.entered hs hw he
  -- A watcher the step left alone has the value that is still published.
  have hquiet : ∀ {f}, s.names.aliases name = some f → w' ∈ (s.names.entries f).watchers →
      s'.published name empty = (s.names.entries f).current s.world.table →
      ∃ w : AliasWatcher C, w' = w.deliverLocked (s'.published name empty) ∧
        (w ∈ s.watchersOf name ∨ s'.names.nextWatcher = s.names.nextWatcher + 1 ∧
          ∃ changed, w = ⟨s.names.nextWatcher, changed, .nil, []⟩) := by
    intro f hf hmem hsame
    have hold : w' ∈ s.watchersOf name := by rw [watchersOf_eq hf]; exact hmem
    refine ⟨w', (AliasWatcher.deliverLocked_of_same ?_).symm, Or.inl hold⟩
    rw [hsame, ← (h.published_of_watched hf hmem).2]
    exact hlast w' hold
  generalize hx : s'.names.entries e = x at hentered hw' hempty hpub
  cases hentered with
  | same hold => exact hquiet hold hw' (hpub.trans (h.current_step hs _))
  | dropped hold =>
    exact hquiet hold (List.mem_filter.mp hw').1 (hpub.trans (h.current_step hs _))
  | cleared hold =>
    obtain ⟨w, hmem, rfl⟩ := List.mem_map.mp hw'
    refine ⟨w, ?_, Or.inl ?_⟩
    · rw [hpub]
      rfl
    · rw [watchersOf_eq hold]
      exact hmem
  | bound hworld =>
    obtain ⟨w, hmem, rfl⟩ := List.mem_map.mp hw'
    obtain ⟨f, hf, hbase⟩ := mem_base hmem
    refine ⟨w, ?_, Or.inl ?_⟩
    · rw [hpub, hworld]
      rfl
    · rw [watchersOf_eq hf, ← hbase]
      exact hmem
  | @joined changed hworld hnext =>
    rw [hworld] at hpub
    rcases List.mem_append.mp hw' with hmem | hmem
    · have hmem' : w' ∈ (s.names.base name empty).watchers := by
        unfold AliasEntry.stick at hmem
        split at hmem <;> exact hmem
      obtain ⟨f, hf, hbase⟩ := mem_base hmem'
      rw [hbase] at hmem' hpub
      -- There was a watcher, so `empty` stuck before.
      have hstick : (s.names.entries f).stick empty = s.names.entries f := by
        refine if_neg fun hnil => hnil.2 ?_
        rw [← (h.published_of_watched hf hmem').1, hnil.1]
      rw [hstick] at hpub
      exact hquiet hf hmem' hpub
    · obtain rfl := List.mem_singleton.mp hmem
      refine ⟨_, ?_, Or.inr ⟨hnext, changed, rfl⟩⟩
      rw [hpub]
      rfl

end SteadyInv

/-! ## Whole runs -/

theorem Aliased.nextWatcher_le {s s' : Aliased C} {a : AliasAction C}
    (hs : s.step a = some s') : s.names.nextWatcher ≤ s'.names.nextWatcher := by
  cases Aliased.step_cases hs with
  | quiet | refused | watchNone | clearNone => exact le_refl _
  | run => exact (AliasTable.nextWatcher_endings _ _).ge
  | publish =>
    refine le_of_eq ?_
    rw [(s.names.frame_publish ..).nextWatcher, AliasTable.nextWatcher_entryOf,
      (s.names.frame_clearHeld ..).nextWatcher]
  | watch hname => exact (s.names.nextWatcher_watch _ _ _ _ hname).ge.trans' (Nat.le_succ _)
  | dropWatcher => exact (s.names.frame_dropWatcher _ _).nextWatcher.ge
  | clear => exact (s.names.frame_clearHeld ..).nextWatcher.ge
  | unbind => exact (s.names.frame_unbindIncarnationLocked _).nextWatcher.ge

structure DeliveryInv (name : String) (empty : Any C) (s : Listening C) : Prop where
  steady : SteadyInv name empty s.aliased
  known : ∀ w ∈ s.aliased.watchersOf name, w.id < s.aliased.names.nextWatcher
  fresh : ∀ w, s.aliased.names.nextWatcher ≤ w → s.history w = []
  heard : ∀ w ∈ s.aliased.watchersOf name, w.Heard (s.history w.id)
  last : ∀ w ∈ s.aliased.watchersOf name, w.last.Same (s.aliased.published name empty)

namespace DeliveryInv

variable {name : String} {empty : Any C} {s s' : Listening C} {a : AliasAction C}

theorem init (grace : ℤ) : DeliveryInv name empty (Listening.init grace) where
  steady := .init grace
  known := nofun
  fresh := fun _ _ => rfl
  heard := nofun
  last := nofun

theorem step (h : DeliveryInv name empty s) (ha : a.isReset = false ∧ a.watches name empty = true)
    (hs : s.step name empty a = some s') : DeliveryInv name empty s' := by
  obtain ⟨u, hu, rfl⟩ := Option.map_eq_some_iff.mp hs
  have hsteady := h.steady.step ha.1 ha.2 hu
  have hle := Aliased.nextWatcher_le hu
  have htold := fun (w' : AliasWatcher C) (hw' : w' ∈ u.watchersOf name) =>
    h.steady.told hsteady hu ha.2 h.last hw'
  have hknown : ∀ w ∈ u.watchersOf name, w.id < u.names.nextWatcher := by
    intro w' hw'
    obtain ⟨w, rfl, hold | ⟨hnext, changed, rfl⟩⟩ := htold w' hw'
    · rw [AliasWatcher.deliverLocked_id]
      exact (h.known w hold).trans_le hle
    · rw [AliasWatcher.deliverLocked_id, hnext]
      exact Nat.lt_succ_self _
  refine ⟨hsteady, hknown, fun w hw => ?_, fun w' hw' => ?_, fun w' hw' => ?_⟩
  · dsimp only
    rw [if_neg, h.fresh w (hle.trans hw)]
    intro hmem
    obtain ⟨x, hx, rfl⟩ := List.mem_map.mp hmem
    exact absurd (hknown x hx) (Nat.not_lt.mpr hw)
  · dsimp only
    rw [if_pos (List.mem_map_of_mem hw')]
    obtain ⟨w, rfl, hold | ⟨_, changed, rfl⟩⟩ := htold w' hw'
    · rw [AliasWatcher.deliverLocked_id]
      exact (h.heard w hold).deliverLocked _
    · rw [AliasWatcher.deliverLocked_id, h.fresh _ (le_refl _)]
      exact (AliasWatcher.heard_new _ _).deliverLocked _
  · obtain ⟨w, rfl, _⟩ := htold w' hw'
    exact w.last_deliverLocked _

end DeliveryInv

/-- A watcher of `name` has the published value, and its callback was called
once for each change of it since the watcher was registered. -/
structure Delivered (name : String) (empty : Any C) (s : Listening C) (w : AliasWatcher C) :
    Prop where
  last : w.last.Same (s.aliased.published name empty)
  called : w.changed.isSome = true →
    w.calls.map Prod.fst = changes Any.Same .nil (s.history w.id)
  silent : w.changed = none → w.calls = []

/-- Without Reset, and if the Watches of a name pass the same empty value, every
watcher of the name hears what is published from its Watch on, each change
once and in order. -/
theorem watcher_delivery {grace : ℤ} {name : String} {empty : Any C}
    {acts : List (AliasAction C)} {s : Listening C}
    (hacts : ∀ a ∈ acts, a.isReset = false ∧ a.watches name empty = true)
    (hrun : run (Listening.step name empty) (Listening.init grace) acts = some s) :
    ∀ w ∈ s.aliased.watchersOf name, Delivered name empty s w := by
  have h : DeliveryInv name empty s := run_inv_along (fun _ _ _ h ha hs => h.step ha hs)
    (along_of_forall hacts _) (.init grace) hrun
  intro w hw
  obtain ⟨notices, hn, hcalls⟩ := h.heard w hw
  refine ⟨h.last w hw, fun hset => ?_, fun hnone => ?_⟩
  · rw [hcalls, if_pos hset, hn.notices]
  · rw [hnone] at hcalls
    exact List.map_eq_nil_iff.mp hcalls

/-- A callback that always panics hears the value come, go and come back. -/
def publishAndClear : List (AliasAction ℕ) :=
  [AliasAction.watch 9 "a" .typedNil (some fun _ => some "boom")] ++
    (createFor 0 0 "key" (.pointer 7) Hooks.none).map .table ++
    [AliasAction.setAlias "key" "a" "P" "G" [0], .setAlias "key" "a" "P" "G" [0],
      .clearPublisher "P" "G" [0], .watch 9 "a" .typedNil none, .setAlias "key" "a" "Q" "H" [0]]

theorem watcher_delivery_publishAndClear : ∃ s : Listening ℕ,
    run (Listening.step "a" .typedNil) (Listening.init 0) publishAndClear = some s ∧
    (s.aliased.watchersOf "a").map AliasWatcher.calls =
      [[(.pointer 7, some "boom"), (.typedNil, some "boom"), (.pointer 7, some "boom")], []] ∧
    ∀ w ∈ s.aliased.watchersOf "a", Delivered "a" .typedNil s w :=
  ⟨_, rfl, by decide +kernel,
    @watcher_delivery ℕ _ 0 "a" .typedNil publishAndClear _ (by decide +kernel) rfl⟩

end MiddlewareUtils.Reclaim
