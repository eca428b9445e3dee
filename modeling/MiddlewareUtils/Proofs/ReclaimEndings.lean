import MiddlewareUtils.Proofs.ReclaimProtocol

/-!
# What an ending may touch

A drop, an expiry, a failed create, the close after a panic and a Reset each
end an incarnation. Another incarnation of the same key may be there by
then: Reset unmaps a slot whose Sleep still runs, and the next Open creates
under the key again. Whatever the first incarnation's ending still does, the
second should not feel it.

Nearly every write to the map is guarded by `t.items[key] == incarnation`,
and every write to a slot goes to the incarnation the ending holds. The one
exception is `installCloser`. It puts the closer under the key without
looking at what is there, so when Sleep panics after Reset has taken the
slot away, the closer replaces the newer incarnation (`panicAfterReset`).
Where `installCloser` finds the key unmapped or still its own, endings leave
all other incarnations alone.
-/

namespace MiddlewareUtils.Reclaim

open Lib

variable {V : Type}

/-- The incarnations, or their closer, that a step at `pc` is ending; `none`
when it belongs to no ending. -/
def Pc.ended (t : Table V) : Pc V → Option (List ℕ)
  | createFailed i _ | release i _ | claimDrop i _ | dropParked i _ _ | sleepCall i _
  | sleepRun i _ | slept i _ | panicked i _ _ | claimExpire i _ | unmapClosed i _
  | resetSleepCall i _ | resetSleepRun i _ => some [i]
  | closeReady i closer _ _ => some [i, closer]
  | closeCall i after | closeRun i after => some (i :: after.keeper.toList)
  | closeFinal _ _ => some []
  | takeAll => some t.mapped
  | resetNext rest => some (rest.take 1)
  | _ => none

/-- The step ends incarnations other than `j`, or is no process's step. -/
def World.EndsOther (j : ℕ) (w : World V) : Action V → Prop
  | .run p _ => ∀ q ∈ w.procs p, ∃ slots ∈ q.pc.ended w.table, j ∉ slots
  | _ => True

instance (j : ℕ) (w : World V) : (a : Action V) → Decidable (w.EndsOther j a)
  | .run p _ =>
    inferInstanceAs (Decidable (∀ q ∈ w.procs p, ∃ slots ∈ q.pc.ended w.table, j ∉ slots))
  | .openKey .. | .cancel .. | .reset | .tick _ | .fire _ => isTrue trivial

def World.swaps (w : World V) : Action V → Option ℕ
  | .run p _ =>
    match w.procs p with
    | some ⟨_, .panicked i _ _⟩ =>
      if (w.table.slots i).hooks.enforceCloseBeforeOpen then some i else none
    | _ => none
  | _ => none

/-- A closer replaces its own incarnation or nothing. -/
def ClosesOwnKey (w : World V) (a : Action V) : Prop :=
  ∀ i ∈ w.swaps a, ∀ j ∈ w.table.items (w.table.slots i).key, j = i

instance (w : World V) (a : Action V) : Decidable (ClosesOwnKey w a) := by
  unfold ClosesOwnKey
  infer_instance

/-- Incarnation `j` is as it was, mapped if it was, and then an Open of its
key is answered as before. -/
structure Untouched (j : ℕ) (t t' : Table V) : Prop where
  slot : t'.slots j = t.slots j
  mapped : t.items (t.slots j).key = some j → t'.items (t.slots j).key = some j
  answers : t.items (t.slots j).key = some j →
    (t'.lookupOpen (t.slots j).key).2 = (t.lookupOpen (t.slots j).key).2

section Step

variable {env : Env} {t t' : Table V} {pc pc' : Pc V} {evs : List Event} {i j : ℕ}

theorem Untouched.of_kept (hslot : t'.slots j = t.slots j)
    (hmap : t.items (t.slots j).key = some j → t'.items (t.slots j).key = some j) :
    Untouched j t t' := by
  refine ⟨hslot, hmap, fun hkey => ?_⟩
  unfold Table.lookupOpen
  rw [hmap hkey, hkey]
  dsimp only
  rw [hslot]
  cases (t.slots j).state <;> rfl

theorem Untouched.trans {t'' : Table V} (h : Untouched j t t') (h' : Untouched j t' t'') :
    Untouched j t t'' := by
  refine .of_kept (h'.slot.trans h.slot) fun hkey => ?_
  rw [← h.slot]
  exact h'.mapped (h.slot ▸ h.mapped hkey)

theorem Table.items_unmap_other {k : String} (h : t.items k = some j) (hij : j ≠ i) :
    (t.unmap i).items k = some j := by
  unfold Table.unmap
  split
  next hi =>
    refine (Function.update_of_ne ?_ ..).trans h
    rintro rfl
    rw [hi] at h
    exact hij (Option.some.inj h).symm
  · exact h

theorem Move.slot_of_ended (hm : Move env t pc t' pc' evs) {slots : List ℕ}
    (hend : pc.ended t = some slots) (hj : j < t.nextSlot) (hne : j ∉ slots) :
    t'.slots j = t.slots j := by
  have hmine : ∀ {l : List ℕ}, some (j :: l) = some slots → False := by
    intro l h
    exact hne (Option.some.inj h ▸ List.mem_cons_self)
  have hslot := hm.slot j
  generalize hs : t'.slots j = s at hslot
  cases hslot with
  | same => rfl
  | registered hi | closer hi => exact absurd hi hj.ne
  | held | reclaimed | put | woken => cases hend
  | failed | released | claimed | settled | armed | broke | enforced | disposed | unmapped | reset =>
    exact (hmine hend).elim
  | cleared =>
    cases hm with
    | takeAll =>
      cases hend
      exact hs.symm.trans (if_neg hne)

theorem Move.items_of_ended (hm : Move env t pc t' pc' evs) {slots : List ℕ}
    (hend : pc.ended t = some slots) (hj : j < t.nextSlot) (hne : j ∉ slots)
    (hswap : ∀ i ce err, pc = .panicked i ce err →
      (t.slots i).hooks.enforceCloseBeforeOpen = true →
      ∀ i' ∈ t.items (t.slots i).key, i' = i)
    (hmap : t.items (t.slots j).key = some j) : t'.items (t.slots j).key = some j := by
  have hother : ∀ {i}, some [i] = some slots → j ≠ i := by
    rintro i h rfl
    exact hne (Option.some.inj h ▸ List.mem_cons_self)
  cases hm with
  | create | retry | put => cases hend
  | @putFailed i err =>
    exact Table.items_unmap_other (t := t.endWith i (some err)) hmap (hother hend)
  | @abort i createErr =>
    exact Table.items_unmap_other (t := t.endWith i createErr) hmap (hother hend)
  | @expireDispose i => exact Table.items_unmap_other (t := t.endSlot i) hmap (hother hend)
  | unmapClosed => exact Table.items_unmap_other hmap (hother hend)
  | parkZero _ _ hi =>
    refine (Function.update_of_ne ?_ ..).trans hmap
    intro hkey
    rw [hkey, hi] at hmap
    exact hother hend (Option.some.inj hmap).symm
  | @swap i createErr err henf =>
    refine (Function.update_of_ne ?_ ..).trans hmap
    intro hkey
    exact hother hend (hswap i createErr err rfl henf j (hkey ▸ hmap))
  | takeAll =>
    cases hend
    exact absurd (List.mem_filter.mpr ⟨List.mem_range.mpr hj, decide_eq_true hmap⟩) hne
  | wake => cases hend
  | _ => exact hmap

end Step

theorem World.untouched_step {w w' : World V} {a : Action V} {j : ℕ} (hj : j < w.table.nextSlot)
    (hother : w.EndsOther j a) (hown : ClosesOwnKey w a) (hs : w.step a = some w') :
    j < w'.table.nextSlot ∧ Untouched j w.table w'.table := by
  cases World.step_cases hs with
  | openKey | cancel | reset | tick | fire => exact ⟨hj, .of_kept rfl id⟩
  | @run p inp caller pc t pc' evs hp hm =>
    obtain ⟨slots, hend, hne⟩ := hother _ hp
    refine ⟨hj.trans_le hm.nextSlot_le, .of_kept (hm.slot_of_ended hend hj hne)
      (hm.items_of_ended hend hj hne fun i ce err hpc henf => ?_)⟩
    refine hown i ?_
    subst hpc
    simp only [World.swaps, hp, henf, if_true]
    rfl

/-- However many endings of other incarnations run, in whatever order,
incarnation `j` does not feel them. -/
theorem endings_keep_apart {w w' : World V} {acts : List (Action V)} {j : ℕ}
    (hj : j < w.table.nextSlot)
    (hacts : Along World.step (fun w a => w.EndsOther j a ∧ ClosesOwnKey w a) w acts)
    (hrun : run World.step w acts = some w') : Untouched j w.table w'.table := by
  have hstep : ∀ v a v', j < v.table.nextSlot ∧ Untouched j w.table v.table →
      v.EndsOther j a ∧ ClosesOwnKey v a → v.step a = some v' →
      j < v'.table.nextSlot ∧ Untouched j w.table v'.table := by
    intro v a v' hv ha hs
    obtain ⟨hlt, hun⟩ := World.untouched_step hv.1 ha.1 ha.2 hs
    exact ⟨hlt, hv.2.trans hun⟩
  exact (run_inv_along hstep hacts ⟨hj, .of_kept rfl id⟩ hrun).2

/-- A Reset takes a value away while its Sleep runs and returns. Then an
Open creates under the key again. -/
def openAfterReset : List (Action Unit) :=
  createFor 0 0 "key" () ⟨true, false, true, true⟩ ++ dropFor 0 0 ++
    [Action.reset, .run 1 (.order [0])] ++ steps 1 2 ++ createFor 2 1 "key" () Hooks.none

/-- Sleep returns, and the first value is closed by its own drop. -/
theorem endings_keep_apart_sleepReturns : ∃ w w' : World Unit,
    run World.step (World.init 5) openAfterReset = some w ∧
    run World.step w (steps 0 7) = some w' ∧ (w'.table.slots 0).state = .gone ∧
    (w'.table.slots 1).state = .awake ∧ w'.table.items "key" = some 1 ∧
    Untouched 1 w.table w'.table :=
  ⟨_, _, rfl, rfl, by decide +kernel, by decide +kernel, by decide +kernel,
    @endings_keep_apart Unit _ _ (steps 0 7) 1 (by decide +kernel) (by decide +kernel) rfl⟩

/-- Sleep panics instead. -/
def panicAfterReset : List (Action Unit) := [.run 0 (.panicked "sleep"), .run 0 .none]

/-- The closer of the first value takes the key of the second, which is
awake and held. -/
theorem closer_replaces_newer : ∃ w w' : World Unit,
    run World.step (World.init 5) openAfterReset = some w ∧
    Along World.step ResetApart (World.init 5) openAfterReset ∧
    run World.step w panicAfterReset = some w' ∧
    Along World.step (World.EndsOther 1) w panicAfterReset ∧
    (w.table.slots 1).state = .awake ∧ w.table.items "key" = some 1 ∧
    (w'.table.slots 1).state = .awake ∧ w'.table.items "key" = some 2 :=
  ⟨_, _, rfl, by decide +kernel, rfl, by decide +kernel, by decide +kernel, by decide +kernel,
    by decide +kernel, by decide +kernel⟩

end MiddlewareUtils.Reclaim
