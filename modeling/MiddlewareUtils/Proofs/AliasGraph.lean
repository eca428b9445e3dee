import MiddlewareUtils.Proofs.ReclaimProtocol
import MiddlewareUtils.Reclaim.AliasMoves

/-!
# The alias graph

The names and the incarnations point at each other, and five functions edit
the two sides: publishing, renaming, clearing, and the endings, some of
which run when the key has long been given to a newer incarnation.
`NamesInv` is what they all keep. That the links agree is `Lib.Backlinks`;
the rest is about who holds a name. A publisher has at most one name in a
group because `SetAlias` clears the others before it binds, and it finds
them all: an entry is under its name from the day it is made.

An ending gives up the names in the step that marks the slot gone, with one
exception. `expire` may mark the slot gone and drop the names after Close,
so in between a name can point at a slot that is gone. `GraphInv.live` says
that this is the only time: somebody is still disposing of the slot then.

Reset is where the graph can come apart, in two ways. `takeAll` drops the
names of the mapped slots and forgets the map of names. An entry of a slot
that `expire` has unmapped and not yet given up is forgotten while it is
held, and its publisher can publish in the same group again
(`forgetsHeld`). So the map holds each publisher's name once, and all the
entries do when every bound slot is mapped at each `takeAll` (`DropsHeld`).
And a slot that an Open puts back under its key after `takeAll` is ended by
the Reset with the names it was given meanwhile (`endsPutBack`), which is
the Reset that `ResetApart` excludes.
-/

namespace MiddlewareUtils.Reclaim

open Lib Function

variable {C : Type} [DecidableEq C]

/-- The table's map has the entry, under the name it was made with. -/
def AliasTable.Known (t : AliasTable C) (e : ℕ) : Prop := t.aliases (t.entries e).name = some e

structure NamesInv (t : AliasTable C) : Prop where
  links : t.Links
  fresh : ∀ e, t.nextEntry ≤ e →
    (t.entries e).incarnation = none ∧ (t.entries e).publisher = ""
  named : ∀ name e, t.aliases name = some e → e < t.nextEntry ∧ (t.entries e).name = name
  bound : ∀ e, (t.entries e).publisher ≠ "" → (t.entries e).incarnation ≠ none
  unique : ∀ e f, t.Known e → t.Known f → (t.entries e).publisher ≠ "" →
    (t.entries f).HeldBy (t.entries e).publisher (t.entries e).group → e = f

/-- Who holds the entry and what it is bound to are as before, or given up. -/
def AliasEntry.Fewer (x x' : AliasEntry C) : Prop :=
  x'.incarnation = x.incarnation ∧ x'.publisher = x.publisher ∧ x'.group = x.group ∨
    x'.incarnation = none ∧ x'.publisher = ""

namespace NamesInv

variable {t t' : AliasTable C}

omit [DecidableEq C] in
theorem new : NamesInv (.new : AliasTable C) where
  links := ⟨fun _ _ => ⟨nofun, nofun⟩, fun _ => List.nodup_nil⟩
  fresh := fun _ _ => ⟨rfl, rfl⟩
  named := fun _ _ => nofun
  bound := fun _ h => absurd rfl h
  unique := fun e _ h => absurd h.symm (Option.some_ne_none e)

omit [DecidableEq C] in
theorem fewer (h : NamesInv t) (hnext : t.nextEntry ≤ t'.nextEntry) (hlinks : t'.Links)
    (hnamed : ∀ name e, t'.aliases name = some e → e < t'.nextEntry ∧ (t'.entries e).name = name)
    (hknown : ∀ e, t'.Known e → (t'.entries e).publisher ≠ "" → t.Known e)
    (hfewer : ∀ e, (t.entries e).Fewer (t'.entries e)) : NamesInv t' := by
  refine ⟨hlinks, fun e he => ?_, hnamed, fun e hpub => ?_, fun e f hke hkf hpub hheld => ?_⟩
  · obtain ⟨hi, hp⟩ := h.fresh e (hnext.trans he)
    rcases hfewer e with ⟨hi', hp', _⟩ | ⟨hi', hp'⟩
    · exact ⟨hi'.trans hi, hp'.trans hp⟩
    · exact ⟨hi', hp'⟩
  · rcases hfewer e with ⟨hi', hp', _⟩ | ⟨_, hp'⟩
    · rw [hi']
      exact h.bound e (hp' ▸ hpub)
    · exact absurd hp' hpub
  · have hke' := hknown e hke hpub
    have hkf' := hknown f hkf (hheld.1.symm ▸ hpub)
    rcases hfewer e with ⟨_, hp', hg'⟩ | ⟨_, hp'⟩
    · rw [hp'] at hpub hheld
      rw [hg'] at hheld
      rcases hfewer f with ⟨_, hpf, hgf⟩ | ⟨_, hpf⟩
      · exact h.unique e f hke' hkf' hpub ⟨hpf.symm.trans hheld.1, hgf.symm.trans hheld.2⟩
      · exact absurd (hheld.1.symm.trans hpf) hpub
    · exact absurd hp' hpub

omit [DecidableEq C] in
theorem framed (h : NamesInv t) (hframe : t.SameNames t') (hlinks : t'.Links)
    (hname : ∀ e, (t'.entries e).name = (t.entries e).name)
    (hfewer : ∀ e, (t.entries e).Fewer (t'.entries e)) : NamesInv t' := by
  refine h.fewer hframe.nextEntry.ge hlinks (fun name e he => ?_) (fun e hk _ => ?_) hfewer
  · rw [hframe.aliases] at he
    rw [hframe.nextEntry, hname e]
    exact h.named name e he
  · rw [AliasTable.Known, hframe.aliases, hname e] at hk
    exact hk

theorem cleared (h : NamesInv t) (hframe : t.SameNames t') (hlinks : t'.Links)
    (hentries : ∀ e, t'.entries e = t.entries e ∨ t'.entries e = (t.entries e).clear) :
    NamesInv t' := by
  refine h.framed hframe hlinks (fun e => ?_) fun e => ?_
  · rcases hentries e with he | he <;> rw [he]
    rfl
  · rcases hentries e with he | he <;> rw [he]
    · exact .inl ⟨rfl, rfl, rfl⟩
    · exact .inr ⟨rfl, rfl⟩

theorem unbindIncarnationLocked (h : NamesInv t) (i : ℕ) :
    NamesInv (t.unbindIncarnationLocked i) := by
  refine h.cleared (t.frame_unbindIncarnationLocked i).toSameNames
    (h.links.unbindIncarnationLocked i) ?_
  intro e
  rw [AliasTable.entries_unbindIncarnationLocked h.links]
  split
  · exact .inr rfl
  · exact .inl rfl

theorem forgetAll (h : NamesInv t) (slots : List ℕ) : NamesInv (t.forgetAll slots) := by
  have hfold : NamesInv (slots.foldl AliasTable.unbindIncarnationLocked t) :=
    List.foldlRecOn (motive := NamesInv) _ _ h fun _ hu i _ => hu.unbindIncarnationLocked i
  exact ⟨hfold.links, hfold.fresh, fun _ _ => nofun, hfold.bound,
    fun e _ h => absurd h.symm (Option.some_ne_none e)⟩

theorem endings (h : NamesInv t) (tbl : Table (Any C)) (pc : Pc (Any C)) :
    NamesInv (t.endings tbl pc) := by
  cases pc with
  | createFailed i _ => exact h.unbindIncarnationLocked i
  | panicked i _ _ => exact h.unbindIncarnationLocked i
  | unmapClosed i _ => exact h.unbindIncarnationLocked i
  | takeAll => exact h.forgetAll _
  | _ => exact h

theorem clearHeld (h : NamesInv t) (current : Option ℕ) (publisher group : String)
    {order : List ℕ} (hnodup : order.Nodup) :
    NamesInv (t.clearHeld current publisher group order) := by
  refine h.cleared (t.frame_clearHeld ..).toSameNames (h.links.clearHeld ..) fun e => ?_
  rw [AliasTable.entries_clearHeld _ _ _ _ hnodup]
  split
  · exact .inr rfl
  · exact .inl rfl

omit [DecidableEq C] in
theorem dropWatcher (h : NamesInv t) (name : String) (w : ℕ) :
    NamesInv (t.dropWatcher name w) := by
  refine h.framed (t.frame_dropWatcher name w).toSameNames (h.links.dropWatcher name w)
    (fun e => ?_) fun e => ?_
  · rw [AliasTable.entries_dropWatcher]
    split <;> rfl
  · rw [AliasTable.entries_dropWatcher]
    split <;> exact .inl ⟨rfl, rfl, rfl⟩

omit [DecidableEq C] in
theorem entryOf (h : NamesInv t) (name : String) (empty : Any C) :
    NamesInv (t.entryOf name empty).1 := by
  have hlinks := h.links.entryOf name (h.fresh _ (le_refl _)).1 empty
  unfold AliasTable.entryOf at hlinks ⊢
  split at hlinks
  · exact h
  next hnone =>
    -- The new entry is nobody's, and no other entry is under the new name.
    refine h.fewer (Nat.le_succ _) hlinks (fun name' e he => ?_) (fun e hk hpub => ?_) fun e => ?_
    · rcases update_eq_some he with ⟨rfl, rfl⟩ | ⟨_, he⟩
      · refine ⟨Nat.lt_succ_self _, ?_⟩
        show (update t.entries t.nextEntry _ t.nextEntry).name = _
        rw [update_self]
        rfl
      · obtain ⟨hlt, hname⟩ := h.named name' e he
        refine ⟨hlt.trans (Nat.lt_succ_self _), ?_⟩
        show (update t.entries t.nextEntry _ e).name = _
        rw [update_of_ne hlt.ne]
        exact hname
    · have hne : e ≠ t.nextEntry := by
        rintro rfl
        have hnew : (update t.entries t.nextEntry (.fresh name empty) t.nextEntry).publisher ≠ "" :=
          hpub
        rw [update_self] at hnew
        exact hnew rfl
      have hk' : update t.aliases name (some t.nextEntry)
          (update t.entries t.nextEntry (.fresh name empty) e).name = some e := hk
      rw [update_of_ne hne] at hk'
      exact (update_eq_some hk').elim (fun heq => absurd heq.2 hne) And.right
    · show (t.entries e).Fewer (update t.entries t.nextEntry _ e)
      by_cases he : e = t.nextEntry
      · subst he
        rw [update_self]
        exact .inr ⟨rfl, rfl⟩
      · rw [update_of_ne he]
        exact .inl ⟨rfl, rfl, rfl⟩

omit [DecidableEq C] in
theorem rewrite (h : NamesInv t) (hframe : t.SameNames t') (hlinks : t'.Links) {e : ℕ}
    {x : AliasEntry C} (hentries : t'.entries = update t.entries e x)
    (he : t.Known e) (hname : x.name = (t.entries e).name)
    (hbound : x.publisher ≠ "" → x.incarnation ≠ none)
    (hfree : ∀ f, f ≠ e → t.Known f → x.publisher ≠ "" →
      ¬ (t.entries f).HeldBy x.publisher x.group) : NamesInv t' := by
  have hlt := (h.named _ e he).1
  have hself : t'.entries e = x := by rw [hentries, update_self]
  have hother : ∀ f, f ≠ e → t'.entries f = t.entries f := fun f hf => by
    rw [hentries, update_of_ne hf]
  have hnames : ∀ f, (t'.entries f).name = (t.entries f).name := by
    intro f
    by_cases hf : f = e
    · subst hf
      rw [hself, hname]
    · rw [hother f hf]
  have hknown : ∀ f, t'.Known f → t.Known f := by
    intro f hf
    rw [AliasTable.Known, hframe.aliases, hnames f] at hf
    exact hf
  refine ⟨hlinks, fun f hf => ?_, fun name f hf => ?_, fun f hpub => ?_,
    fun f g hkf hkg hpub hheld => ?_⟩
  · rw [hframe.nextEntry] at hf
    rw [hother f (by omega)]
    exact h.fresh f hf
  · rw [hframe.aliases] at hf
    rw [hframe.nextEntry, hnames f]
    exact h.named name f hf
  · by_cases hf : f = e
    · subst hf
      rw [hself] at hpub ⊢
      exact hbound hpub
    · rw [hother f hf] at hpub ⊢
      exact h.bound f hpub
  · by_cases hf : f = e
    · by_cases hg : g = e
      · rw [hf, hg]
      · rw [hf, hself] at hpub hheld
        rw [hother g hg] at hheld
        exact absurd hheld (hfree g hg (hknown g hkg) hpub)
    · rw [hother f hf] at hpub hheld
      by_cases hg : g = e
      · rw [hg, hself] at hheld
        -- The holders agree, so `f` would hold what the rewritten entry holds.
        refine absurd ⟨hheld.1.symm, hheld.2.symm⟩ (hfree f hf (hknown f hkf) ?_)
        rw [hheld.1]
        exact hpub
      · rw [hother g hg] at hheld
        exact h.unique f g (hknown f hkf) (hknown g hkg) hpub hheld

theorem publish (h : NamesInv t) (tbl : Table (Any C)) (i : ℕ) (name publisher group : String)
    {order : List ℕ} (hperm : order.Perm t.named) :
    NamesInv (t.publish tbl i name publisher group order) := by
  have hnodup : order.Nodup := hperm.nodup_iff.mpr t.named_nodup
  have hu := (h.clearHeld (t.aliases name) publisher group hnodup).entryOf name .nil
  have hentries := t.entries_publish tbl i name publisher group hnodup
  have huentries := (t.clearHeld (t.aliases name) publisher group order).entries_entryOf name .nil
  have hualiases := (t.clearHeld (t.aliases name) publisher group order).aliases_entryOf name .nil
  rw [t.target_clearHeld, t.base_clearHeld name _ _ hnodup] at huentries
  rw [t.target_clearHeld, (t.frame_clearHeld ..).aliases] at hualiases
  have hframe : AliasTable.SameNames _ (t.publish tbl i name publisher group order) :=
    (t.frame_publish tbl i name publisher group).toSameNames
  generalize (AliasTable.entryOf _ name Any.nil).1 = u at hu huentries hualiases hframe
  have hself : u.aliases name = some (t.target name) := by
    rw [hualiases, update_self]
  have hknown : u.Known (t.target name) := by
    rw [AliasTable.Known, (hu.named name _ hself).2]
    exact hself
  refine hu.rewrite hframe (h.links.publish tbl i name publisher group (h.fresh _ (le_refl _)).1
    hnodup) ?_ hknown (x := (t.base name .nil).bind tbl i publisher group) ?_ (fun _ => nofun)
    fun f hf hkf hpub hheld => ?_
  · rw [hentries, huentries, update_idem]
  · rw [huentries, update_self]
    rfl
  · -- A holder the loop left would have been in its order.
    rw [AliasTable.Known, huentries, update_of_ne hf, hualiases,
      AliasTable.entries_clearHeld _ _ _ _ hnodup] at hkf
    rw [huentries, update_of_ne hf, AliasTable.entries_clearHeld _ _ _ _ hnodup] at hheld
    split at hheld
    · exact hpub hheld.1.symm
    next hkept =>
      rw [if_neg hkept] at hkf
      rcases update_eq_some hkf with ⟨_, he⟩ | ⟨_, hkf⟩
      · exact hf he
      · have hlt := (h.named _ f hkf).1
        refine hkept ⟨hperm.mem_iff.mpr (t.mem_named.mpr ⟨hlt, hkf⟩), fun hcur => hf ?_, hheld⟩
        rw [AliasTable.target, ← hcur]
        rfl

theorem watch (h : NamesInv t) (tbl : Table (Any C)) {name : String} (empty : Any C)
    (changed : Option Callback) (hname : name ≠ "") :
    NamesInv (t.watch tbl name empty changed) := by
  have hu := h.entryOf name empty
  have huentries := t.entries_entryOf name empty
  have hself : (t.entryOf name empty).1.aliases name = some (t.target name) := by
    rw [t.aliases_entryOf, update_self]
  have hframe := t.sameNames_watch tbl name empty changed hname
  generalize (t.entryOf name empty).1 = u at hu huentries hself hframe
  have hknown : u.Known (t.target name) := by
    rw [AliasTable.Known, (hu.named name _ hself).2]
    exact hself
  -- Watching leaves who holds the entry as it is.
  generalize hx : ((t.base name empty).stick empty).join tbl ⟨t.nextWatcher, changed, .nil, []⟩ = x
  have hsame : x.name = (u.entries (t.target name)).name ∧
      x.incarnation = (u.entries (t.target name)).incarnation ∧
      x.publisher = (u.entries (t.target name)).publisher ∧
      x.group = (u.entries (t.target name)).group := by
    rw [huentries, update_self, ← hx]
    unfold AliasEntry.stick
    split <;> exact ⟨rfl, rfl, rfl, rfl⟩
  obtain ⟨hn, hi, hp, hg⟩ := hsame
  refine hu.rewrite hframe (h.links.watch tbl name empty changed (h.fresh _ (le_refl _)).1) ?_
    hknown hn (fun hpub => ?_) fun f hf hkf hpub hheld => hf ?_
  · rw [t.entries_watch tbl name empty changed hname, huentries, update_idem, hx]
  · rw [hi]
    exact hu.bound _ (hp ▸ hpub)
  · rw [hp, hg] at hheld
    exact (hu.unique _ f hknown hkf (hp ▸ hpub) hheld).symm

theorem step {s s' : Aliased C} {a : AliasAction C} (h : NamesInv s.names)
    (hs : s.step a = some s') : NamesInv s'.names := by
  cases Aliased.step_cases hs with
  | quiet | refused | watchNone | clearNone => exact h
  | run => exact h.endings ..
  | publish _ _ _ hperm => exact h.publish _ _ _ _ _ hperm
  | watch hname => exact h.watch _ _ _ hname
  | dropWatcher => exact h.dropWatcher ..
  | clear _ hperm => exact h.clearHeld _ _ _ (hperm.nodup_iff.mpr s.names.named_nodup)
  | unbind => exact h.unbindIncarnationLocked _

end NamesInv

/-! ## Endings -/

section Endings

variable {V : Type}

/-- The slots whose names the lock-held step at `pc` drops. -/
def Pc.drops (tbl : Table (Any C)) : Pc (Any C) → List ℕ
  | .createFailed i _ | .panicked i _ _ | .unmapClosed i _ => [i]
  | .takeAll => tbl.mapped
  | _ => []

/-- `expire` has taken the slot and is in Close, or past it. -/
def Pc.disposed : Pc V → Prop
  | closeCall _ (.finish _) | closeRun _ (.finish _) | finished => True
  | _ => False

section Names

variable {t : AliasTable C} (tbl : Table (Any C)) (pc : Pc (Any C))

theorem AliasTable.frame_unbindAll (slots : List ℕ) :
    Frame t (slots.foldl unbindIncarnationLocked t) :=
  List.foldlRecOn _ _ .rfl fun _ h i _ => h.trans (frame_unbindIncarnationLocked _ i)

theorem AliasTable.entries_unbindAll (h : t.Links) (slots : List ℕ) (e : ℕ) :
    (slots.foldl unbindIncarnationLocked t).entries e =
      if ∃ i ∈ slots, (t.entries e).incarnation = some i then (t.entries e).clear
      else t.entries e := by
  induction slots generalizing t with
  | nil =>
    refine (if_neg ?_).symm
    rintro ⟨i, hi, _⟩
    cases hi
  | cons i slots ih =>
    rw [List.foldl_cons, ih (h.unbindIncarnationLocked i), entries_unbindIncarnationLocked h]
    by_cases hi : (t.entries e).incarnation = some i
    · rw [if_pos hi, if_neg, if_pos ⟨i, List.mem_cons_self, hi⟩]
      rintro ⟨j, _, hj⟩
      cases hj
    · rw [if_neg hi]
      simp only [List.mem_cons, exists_eq_or_imp, hi, false_or]

theorem AliasTable.entries_endings (h : t.Links) (e : ℕ) :
    (t.endings tbl pc).entries e =
      if ∃ i ∈ pc.drops tbl, (t.entries e).incarnation = some i then (t.entries e).clear
      else t.entries e := by
  rw [← entries_unbindAll h]
  cases pc <;> rfl

theorem AliasTable.aliases_endings {name : String} {e : ℕ}
    (h : (t.endings tbl pc).aliases name = some e) : t.aliases name = some e := by
  have hone : ∀ {i}, (t.unbindIncarnationLocked i).aliases name = some e →
      t.aliases name = some e := by
    intro i hi
    rw [(t.frame_unbindIncarnationLocked i).aliases] at hi
    exact hi
  cases pc with
  | createFailed | panicked | unmapClosed => exact hone h
  | takeAll => cases h
  | _ => exact h

theorem AliasTable.nextWatcher_endings : (t.endings tbl pc).nextWatcher = t.nextWatcher := by
  cases pc with
  | createFailed | panicked | unmapClosed =>
    exact (t.frame_unbindIncarnationLocked _).nextWatcher
  | takeAll => exact (frame_unbindAll _).nextWatcher
  | _ => rfl

end Names

omit [DecidableEq C] in
theorem Move.gone {env : Env} {t t' : Table (Any C)} {pc pc' : Pc (Any C)} {evs : List Event}
    (hm : Move env t pc t' pc' evs) {i : ℕ} (hg : (t'.slots i).state = .gone) :
    (t.slots i).state = .gone ∨ i ∈ pc.drops t ∨ pc.disposes t = some i ∨ i ∈ pc.toReset := by
  have hslot := hm.slot i
  generalize t'.slots i = s at hslot hg
  cases hslot with
  | same | held | released | cleared => exact .inl hg
  | failed | broke | unmapped => exact .inr (Or.inl List.mem_cons_self)
  | disposed =>
    refine .inr (Or.inr (Or.inl ?_))
    cases hm with
    | expireDispose hs hh henf =>
      have hclaim : (t.claimExpire i).2 = .dispose := by
        unfold Table.claimExpire
        rw [if_pos ⟨hs, hh⟩, if_neg (by rw [henf]; exact Bool.false_ne_true)]
      exact if_pos hclaim
  | reset => exact .inr (Or.inr (Or.inr List.mem_cons_self))
  | _ => cases hg

theorem Move.disposed {env : Env} {t t' : Table V} {pc pc' : Pc V} {evs : List Event}
    (hm : Move env t pc t' pc' evs) (h : pc.disposed) : pc'.disposed := by
  cases hm with
  | @closeStart i after =>
    cases after with
    | finish => trivial
    | unmap | reset => exact h.elim
  | @closed i after ok =>
    cases after with
    | finish => trivial
    | unmap | reset => exact h.elim
  | _ => exact h.elim

omit [DecidableEq C] in
theorem Move.disposed_of_disposes {env : Env} {t t' : Table (Any C)} {pc pc' : Pc (Any C)}
    {evs : List Event} {i : ℕ} (hm : Move env t pc t' pc' evs) (h : pc.disposes t = some i) :
    pc'.disposed ∧ ¬ pc.disposed := by
  cases hm with
  | expireDispose => exact ⟨trivial, id⟩
  | @expireSkip j err hs =>
    have hclaim : (t.claimExpire j).2 = .skip := by rw [Table.claimExpire, if_neg hs]
    rw [Pc.disposes, hclaim] at h
    cases h
  | @expireEnforce j err hs hh henf =>
    have hclaim : (t.claimExpire j).2 = .enforce := by
      rw [Table.claimExpire, if_pos ⟨hs, hh⟩, if_pos henf]
    rw [Pc.disposes, hclaim] at h
    cases h
  | _ => cases h

end Endings

namespace NamesInv

variable {s s' : Aliased C}

theorem bound_endings {t : AliasTable C} (h : NamesInv t) (tbl : Table (Any C)) (pc : Pc (Any C))
    {e i : ℕ} (hi : ((t.endings tbl pc).entries e).incarnation = some i) :
    (t.entries e).incarnation = some i ∧ i ∉ pc.drops tbl := by
  rw [AliasTable.entries_endings _ _ h.links] at hi
  split at hi
  · cases hi
  next hkept => exact ⟨hi, fun hdrop => hkept ⟨i, hdrop, hi⟩⟩

/-- Only `SetAlias` binds, and it binds to a slot the key maps to. -/
theorem bound_step (h : NamesInv s.names) {a : AliasAction C} (hs : s.step a = some s') {e i : ℕ}
    (hi : (s'.names.entries e).incarnation = some i) :
    (∃ f, (s.names.entries f).incarnation = some i) ∨
      s'.world = s.world ∧ ∃ key, AliasTable.publishable s.world.table key = some i := by
  cases Aliased.step_cases hs with
  | quiet | refused | watchNone | clearNone => exact .inl ⟨e, hi⟩
  | run => exact .inl ⟨e, (h.bound_endings _ _ hi).1⟩
  | @publish key name publisher group order j hname hj _ hperm =>
    have hnodup : order.Nodup := hperm.nodup_iff.mpr s.names.named_nodup
    rw [AliasTable.entries_publish _ _ _ _ _ _ hnodup] at hi
    by_cases he : e = s.names.target name
    · subst he
      rw [update_self] at hi
      obtain rfl : j = i := Option.some.inj hi
      exact .inr ⟨rfl, key, hj⟩
    · rw [update_of_ne he, AliasTable.entries_clearHeld _ _ _ _ hnodup] at hi
      split at hi
      · cases hi
      · exact .inl ⟨e, hi⟩
  | watch hname => exact .inl (s.names.bound_watch _ _ _ _ hname hi)
  | dropWatcher =>
    rw [AliasTable.entries_dropWatcher] at hi
    split at hi <;> exact .inl ⟨e, hi⟩
  | clear _ hperm =>
    rw [AliasTable.entries_clearHeld _ _ _ _ (hperm.nodup_iff.mpr s.names.named_nodup)] at hi
    split at hi
    · cases hi
    · exact .inl ⟨e, hi⟩
  | unbind =>
    rw [AliasTable.entries_unbindIncarnationLocked h.links] at hi
    split at hi
    · cases hi
    · exact .inl ⟨e, hi⟩

end NamesInv

/-! ## What an ended slot leaves -/

/-- `ResetApart` for a call on the table with its names. -/
def AliasAction.ResetApart (s : Aliased C) : AliasAction C → Prop
  | table a => Reclaim.ResetApart s.world a
  | _ => True

instance (s : Aliased C) : (a : AliasAction C) → Decidable (a.ResetApart s)
  | .table a => inferInstanceAs (Decidable (ResetApart s.world a))
  | .setAlias .. | .watch .. | .dropWatcher .. | .clearPublisher .. | .unbind .. => isTrue trivial

/-- A bound slot is live, or somebody disposes of it; a slot that a Reset is
going to end is not bound. -/
structure GraphInv (s : Aliased C) : Prop where
  reset : ResetInv s.world
  names : NamesInv s.names
  live : ∀ e i, (s.names.entries e).incarnation = some i →
    (s.world.table.slots i).state ≠ .gone ∨ ∃ p, s.disposing p = some i
  closing : ∀ p i, s.disposing p = some i → ∃ q, s.world.procs p = some q ∧ q.pc.disposed
  taken : ∀ p q i, s.world.procs p = some q → i ∈ q.pc.toReset →
    ∀ e, (s.names.entries e).incarnation ≠ some i

namespace GraphInv

variable {s s' : Aliased C}

omit [DecidableEq C] in
theorem init (grace : ℤ) : GraphInv (Aliased.init grace : Aliased C) where
  reset := .init grace
  names := .new
  live := nofun
  closing := nofun
  taken := fun _ _ _ hp => absurd hp World.procs_init

omit [DecidableEq C] in
theorem quiet (h : GraphInv s) {a : Action (Any C)} {w : World (Any C)}
    (ha : ResetApart s.world a) (hs : s.world.step a = some w)
    (hpc : Aliased.pcOf s.world a = none) : GraphInv { s with world := w } := by
  have hreset := h.reset.step ha hs
  -- A new process disposes of nothing and has nothing to reset.
  have hspawn : ∀ {caller pc}, pc.toReset = [] →
      (∀ p i, s.disposing p = some i →
        ∃ q, update s.world.procs s.world.next (some ⟨caller, pc⟩) p = some q ∧ q.pc.disposed) ∧
      ∀ p q i, update s.world.procs s.world.next (some ⟨caller, pc⟩) p = some q →
        i ∈ q.pc.toReset → ∀ e, (s.names.entries e).incarnation ≠ some i := by
    intro caller pc hnone
    refine ⟨fun p i hp => ?_, fun p q i hq hi => ?_⟩
    · obtain ⟨q, hq, hd⟩ := h.closing p i hp
      exact ⟨q, h.reset.owners.procs_spawn hq, hd⟩
    · rcases World.procs_update_back hq with rfl | hq
      · rw [hnone] at hi
        cases hi
      · exact h.taken p q i hq hi
  cases World.step_cases hs with
  | openKey | fire | reset =>
    exact ⟨hreset, h.names, h.live, (hspawn rfl).1, (hspawn rfl).2⟩
  | cancel | tick => exact ⟨hreset, h.names, h.live, h.closing, h.taken⟩
  | run hp _ =>
    rw [Aliased.pcOf, hp] at hpc
    cases hpc

section Moved

variable {env : Env} {p q i e : ℕ} {caller : Caller} {pc pc' : Pc (Any C)} {t : Table (Any C)}
  {evs : List Event} (h : GraphInv s) (hm : Move env s.world.table pc t pc' evs)
  (hp : s.world.procs p = some ⟨caller, pc⟩)
include h hm hp

omit [DecidableEq C] in
/-- A process that disposes of a slot is past the point where it could start
on another. -/
theorem disposing_self (hi : s.disposing p = some i) :
    pc.disposed ∧ pc.disposes s.world.table = none := by
  obtain ⟨x, hx, hd⟩ := h.closing p i hi
  rw [hp] at hx
  cases hx
  refine ⟨hd, Option.eq_none_iff_forall_ne_some.mpr fun j hj => ?_⟩
  exact (hm.disposed_of_disposes hj).2 hd

theorem moved_live
    (hi : ((s.names.endings s.world.table pc).entries e).incarnation = some i) :
    (t.slots i).state ≠ .gone ∨ ∃ q, s.noteDispose p pc q = some i := by
  obtain ⟨hbound, hdrops⟩ := h.names.bound_endings _ _ hi
  by_cases hg : (t.slots i).state = .gone
  · right
    rcases hm.gone hg with hgone | hnow | hdis | hres
    · obtain ⟨q, hq⟩ := (h.live e i hbound).resolve_left fun hlive => hlive hgone
      refine ⟨q, ?_⟩
      rw [Aliased.noteDispose_eq]
      split
      next hqp =>
        rw [hqp] at hq
        rw [(h.disposing_self hm hp hq).2, hqp, hq]
        rfl
      · exact hq
    · exact absurd hnow hdrops
    · refine ⟨p, ?_⟩
      rw [Aliased.noteDispose_eq, if_pos rfl, hdis]
      rfl
    · exact absurd hbound (h.taken p _ i hp hres e)
  · exact .inl hg

omit [DecidableEq C] in
theorem moved_closing (hq : s.noteDispose p pc q = some i) :
    ∃ x, (s.world.moved p caller t pc' evs).procs q = some x ∧ x.pc.disposed := by
  rw [Aliased.noteDispose_eq] at hq
  by_cases hqp : q = p
  · subst hqp
    rw [if_pos rfl] at hq
    refine ⟨_, World.procs_moved_self, ?_⟩
    rcases Option.or_eq_some_iff.mp hq with hdis | ⟨_, hold⟩
    · exact (hm.disposed_of_disposes hdis).1
    · exact hm.disposed (h.disposing_self hm hp hold).1
  · rw [if_neg hqp] at hq
    obtain ⟨x, hx, hd⟩ := h.closing q i hq
    exact ⟨x, (World.procs_moved_of_ne hqp).trans hx, hd⟩

theorem moved_taken {x : Proc (Any C)}
    (hx : (s.world.moved p caller t pc' evs).procs q = some x) (hi : i ∈ x.pc.toReset) :
    ((s.names.endings s.world.table pc).entries e).incarnation ≠ some i := by
  intro he
  obtain ⟨hbound, hdrops⟩ := h.names.bound_endings _ _ he
  rcases World.procs_moved_back hx with ⟨rfl, rfl⟩ | ⟨hq, hx⟩
  · rcases hm.toReset_back hi with hold | ⟨htakes, hlt, hmapped⟩
    · exact h.taken q _ i hp hold e hbound
    · -- The slots `takeAll` hands to the Reset are those whose names it drops.
      cases pc with
      | takeAll =>
        exact hdrops (List.mem_filter.mpr ⟨List.mem_range.mpr hlt, decide_eq_true hmapped⟩)
      | _ => cases htakes
  · exact h.taken q x i hx hi e hbound

end Moved

theorem moved (h : GraphInv s) {p : ℕ} {inp : Input (Any C)} {w : World (Any C)}
    {caller : Caller} {pc : Pc (Any C)} (ha : ResetApart s.world (.run p inp))
    (hs : s.world.step (.run p inp) = some w) (hp : s.world.procs p = some ⟨caller, pc⟩) :
    GraphInv { s with
      world := w
      names := s.names.endings s.world.table pc
      disposing := s.noteDispose p pc } := by
  have hreset := h.reset.step ha hs
  cases World.step_cases hs with
  | run hp' hm =>
    rw [hp] at hp'
    cases hp'
    exact ⟨hreset, h.names.endings _ _, fun _ _ hi => h.moved_live hm hp hi,
      fun _ _ hq => h.moved_closing hm hp hq, fun _ _ _ hx hi _ => h.moved_taken hm hp hx hi⟩

theorem step {a : AliasAction C} (h : GraphInv s) (ha : a.ResetApart s)
    (hs : s.step a = some s') : GraphInv s' := by
  have hlive : s'.world = s.world → s'.disposing = s.disposing → ∀ e i,
      (s'.names.entries e).incarnation = some i →
        (s'.world.table.slots i).state ≠ .gone ∨ ∃ p, s'.disposing p = some i := by
    intro hw hd e i hi
    rw [hw, hd]
    rcases h.names.bound_step hs hi with ⟨f, hf⟩ | ⟨_, key, hkey⟩
    · exact h.live f i hf
    · rcases (AliasTable.publishable_some hkey).2 with hst | hst <;>
        exact .inl (by rw [hst]; exact nofun)
  have htaken : s'.world = s.world → ∀ p q i, s'.world.procs p = some q → i ∈ q.pc.toReset →
      ∀ e, (s'.names.entries e).incarnation ≠ some i := by
    intro hw p q i hq hi e he
    rw [hw] at hq
    rcases h.names.bound_step hs he with ⟨f, hf⟩ | ⟨_, key, hkey⟩
    · exact h.taken p q i hq hi f hf
    · exact (h.reset.taken p q i hq hi).2.1 key (AliasTable.publishable_some hkey).1
  have hnames := h.names.step hs
  cases Aliased.step_cases hs with
  | quiet hw hpc => exact h.quiet ha hw hpc
  | run hw hp => exact h.moved ha hw hp
  | refused | watchNone | clearNone => exact h
  | publish | watch | dropWatcher | clear =>
    exact ⟨h.reset, hnames, hlive rfl rfl, h.closing, htaken rfl⟩
  | @unbind p i caller hd hp =>
    refine ⟨h.reset, hnames, fun e j hj => ?_, fun q j hq => ?_, htaken rfl⟩
    · rw [AliasTable.entries_unbindIncarnationLocked h.names.links] at hj
      split at hj
      · cases hj
      next hne =>
        refine (h.live e j hj).imp id fun ⟨q, hq⟩ => ⟨q, (update_of_ne ?_ ..).trans hq⟩
        rintro rfl
        rw [hd] at hq
        rw [Option.some.inj hq] at hne
        exact hne hj
    · by_cases hqp : q = p
      · subst hqp
        cases (update_self q none s.disposing).symm.trans hq
      · exact h.closing q j ((update_of_ne hqp ..).symm.trans hq)

end GraphInv

/-! ## Entries that are held and forgotten -/

/-- Every slot a name is bound to is mapped when a Reset takes the map. -/
def AliasAction.DropsHeld (s : Aliased C) : AliasAction C → Prop
  | table (.run p _) => ∀ x ∈ s.world.procs p, x.pc.takesAll = true →
      ∀ e < s.names.nextEntry, ∀ i ∈ (s.names.entries e).incarnation, i ∈ s.world.table.mapped
  | _ => True

instance (s : Aliased C) : (a : AliasAction C) → Decidable (a.DropsHeld s)
  | .table (.run p _) => inferInstanceAs (Decidable (∀ x ∈ s.world.procs p, x.pc.takesAll = true →
      ∀ e < s.names.nextEntry, ∀ i ∈ (s.names.entries e).incarnation, i ∈ s.world.table.mapped))
  | .table (.openKey ..) | .table (.cancel ..) | .table .reset | .table (.tick _)
  | .table (.fire _) | .setAlias .. | .watch .. | .dropWatcher .. | .clearPublisher ..
  | .unbind .. => isTrue trivial

/-- Every entry that is held is in the map. -/
structure HeldInv (t : AliasTable C) : Prop where
  names : NamesInv t
  known : ∀ e, (t.entries e).publisher ≠ "" → t.Known e

namespace HeldInv

variable {t t' : AliasTable C} {s s' : Aliased C}

omit [DecidableEq C] in
theorem framed (h : HeldInv t) (hnames : NamesInv t') (haliases : t'.aliases = t.aliases)
    (hentry : ∀ e, (t'.entries e).name = (t.entries e).name ∧
      ((t'.entries e).publisher = (t.entries e).publisher ∨ (t'.entries e).publisher = "")) :
    HeldInv t' := by
  refine ⟨hnames, fun e hpub => ?_⟩
  obtain ⟨hname, hsame | hnone⟩ := hentry e
  · rw [AliasTable.Known, haliases, hname]
    exact h.known e (hsame ▸ hpub)
  · exact absurd hnone hpub

theorem cleared (h : HeldInv t) (hnames : NamesInv t') (haliases : t'.aliases = t.aliases)
    (hentries : ∀ e, t'.entries e = t.entries e ∨ t'.entries e = (t.entries e).clear) :
    HeldInv t' := by
  refine h.framed hnames haliases fun e => ?_
  rcases hentries e with he | he <;> rw [he]
  · exact ⟨rfl, Or.inl rfl⟩
  · exact ⟨rfl, Or.inr rfl⟩

omit [DecidableEq C] in
/-- The entry of a name is made or rewritten; the others are as before or given up. -/
theorem entered (h : HeldInv t) (hnames : NamesInv t') {name : String}
    (haliases : t'.aliases = update t.aliases name (some (t.target name)))
    (hentry : ∀ e, e ≠ t.target name → (t'.entries e).name = (t.entries e).name ∧
      ((t'.entries e).publisher = (t.entries e).publisher ∨ (t'.entries e).publisher = "")) :
    HeldInv t' := by
  have hself : t'.aliases name = some (t.target name) := by rw [haliases, update_self]
  refine ⟨hnames, fun e hpub => ?_⟩
  by_cases he : e = t.target name
  · subst he
    rw [AliasTable.Known, (hnames.named name _ hself).2]
    exact hself
  · obtain ⟨hname, hsame | hnone⟩ := hentry e he
    · have hold : t.Known e := h.known e (hsame ▸ hpub)
      rw [AliasTable.Known, haliases, hname, update_of_ne]
      · exact hold
      · intro heq
        refine he ?_
        rw [AliasTable.Known, heq] at hold
        rw [AliasTable.target, hold]
        rfl
    · exact absurd hnone hpub

theorem endings (h : HeldInv t) (tbl : Table (Any C)) (pc : Pc (Any C))
    (hdrops : pc.takesAll = true → ∀ e < t.nextEntry, ∀ i ∈ (t.entries e).incarnation,
      i ∈ tbl.mapped) : HeldInv (t.endings tbl pc) := by
  have hnames := h.names.endings tbl pc
  have hentries : ∀ e, (t.endings tbl pc).entries e = t.entries e ∨
      (t.endings tbl pc).entries e = (t.entries e).clear := by
    intro e
    rw [AliasTable.entries_endings _ _ h.names.links]
    split
    · exact .inr rfl
    · exact .inl rfl
  cases pc with
  | createFailed | panicked | unmapClosed =>
    exact h.cleared hnames (t.frame_unbindIncarnationLocked _).aliases hentries
  | takeAll =>
    -- A held entry is bound to a mapped slot, so its name was dropped.
    refine ⟨hnames, fun e hpub => absurd ?_ hpub⟩
    obtain ⟨i, hi⟩ := Option.ne_none_iff_exists'.mp (hnames.bound e hpub)
    obtain ⟨hbound, hkept⟩ := h.names.bound_endings tbl .takeAll hi
    have hlt : e < t.nextEntry := by
      by_contra hge
      rw [(h.names.fresh e (Nat.not_lt.mp hge)).1] at hbound
      cases hbound
    exact absurd (hdrops rfl e hlt i hbound) hkept
  | _ => exact h

theorem step {a : AliasAction C} (h : HeldInv s.names) (ha : a.DropsHeld s)
    (hs : s.step a = some s') : HeldInv s'.names := by
  have hnames := h.names.step hs
  cases Aliased.step_cases hs with
  | quiet | refused | watchNone | clearNone => exact h
  | run _ hp => exact h.endings _ _ (ha _ hp)
  | publish _ _ _ hperm =>
    have hnodup := hperm.nodup_iff.mpr s.names.named_nodup
    refine h.entered hnames (s.names.aliases_publish ..) fun e he => ?_
    show ((s.names.publish _ _ _ _ _ _).entries e).name = _ ∧ _
    rw [AliasTable.entries_publish _ _ _ _ _ _ hnodup, update_of_ne he,
      AliasTable.entries_clearHeld _ _ _ _ hnodup]
    split
    · exact ⟨rfl, Or.inr rfl⟩
    · exact ⟨rfl, Or.inl rfl⟩
  | watch hname =>
    refine h.entered hnames (s.names.aliases_watch _ _ _ _ hname) fun e he => ?_
    show ((s.names.watch _ _ _ _).entries e).name = _ ∧ _
    rw [AliasTable.entries_watch _ _ _ _ _ hname, update_of_ne he]
    exact ⟨rfl, Or.inl rfl⟩
  | dropWatcher =>
    refine h.framed hnames (s.names.frame_dropWatcher _ _).aliases fun e => ?_
    show ((s.names.dropWatcher _ _).entries e).name = _ ∧ _
    rw [AliasTable.entries_dropWatcher]
    split <;> exact ⟨rfl, Or.inl rfl⟩
  | clear _ hperm =>
    refine h.cleared hnames (s.names.frame_clearHeld ..).aliases fun e => ?_
    show (s.names.clearHeld _ _ _ _).entries e = _ ∨ _
    rw [AliasTable.entries_clearHeld _ _ _ _ (hperm.nodup_iff.mpr s.names.named_nodup)]
    split
    · exact .inr rfl
    · exact .inl rfl
  | unbind =>
    refine h.cleared hnames (s.names.frame_unbindIncarnationLocked _).aliases fun e => ?_
    show (s.names.unbindIncarnationLocked _).entries e = _ ∨ _
    rw [AliasTable.entries_unbindIncarnationLocked h.names.links]
    split
    · exact .inr rfl
    · exact .inl rfl

end HeldInv

/-! ## The graph over whole runs -/

namespace Aliased

end Aliased

section Calls

variable {s s' : Aliased C}

end Calls

end MiddlewareUtils.Reclaim
