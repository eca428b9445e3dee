import MiddlewareUtils.Proofs.ReclaimKept
import MiddlewareUtils.Proofs.ReclaimProtocol

/-!
# Two guards said to be unreachable

`claimDrop` parks a drop that finds its slot busy, and `claimExpire` leaves a
slot alone that is not asleep without holders. The comment in `claimDrop`
and the audit note call both unreachable. They are not, and each has one
schedule behind it.

A drop releases its holder in one lock-held step and claims the Sleep in
another. When the last two holders of a value leave together, both may have
released before either claims; the first to claim takes the slot, and the
second finds it busy (`twoDrops`). And `Timer.Stop` does not stop a callback
that has started, so the callback may find the value taken back
(`lateCallback`).

Without these two schedules the audit is right. A drop past its release
keeps the slot awake while no other drop of the slot releases: only
`claimDrop` takes a slot out of awake, and it is this drop that is there.
A process at `claimExpire` finds its slot asleep, for one of two reasons.
Under a positive grace it is a callback, and `GraceInv` says the slot sleeps
under its timer. Under zero grace it is the drop that put the slot to sleep,
and the slot left the map with that, so no Open can reach it.
-/

namespace MiddlewareUtils.Reclaim

open Lib Function

variable {V : Type}

/-- No drop that is about to claim finds its slot busy, no drop is parked,
and no process about to expire a slot skips it. -/
structure GuardsIdle (w : World V) : Prop where
  drops : ∀ p caller i err, w.procs p = some ⟨caller, .claimDrop i err⟩ →
    ∀ ready, (w.table.claimDrop i).2 ≠ .park ready
  unparked : ∀ p caller i ready err, w.procs p ≠ some ⟨caller, .dropParked i ready err⟩
  expires : ∀ p caller i err, w.procs p = some ⟨caller, .claimExpire i err⟩ →
    (w.table.claimExpire i).2 ≠ .skip

def World.releases (w : World V) : Action V → Option ℕ
  | .run p _ =>
    match w.procs p with
    | some ⟨_, .release i _⟩ => some i
    | _ => none
  | _ => none

def World.releasedOf (w : World V) (i q : ℕ) : Bool :=
  match w.procs q with
  | some ⟨_, .claimDrop j _⟩ => j == i
  | _ => false

/-- No holder is released while another drop of the slot has yet to claim. -/
def DropsApart (w : World V) (a : Action V) : Prop :=
  ∀ i ∈ w.releases a, ∀ q < w.next, w.releasedOf i q = false

instance (w : World V) (a : Action V) : Decidable (DropsApart w a) := by
  unfold DropsApart
  infer_instance

/-! ## Drops past their release -/

def Pc.claims : Pc V → ℕ → Prop
  | claimDrop i _, j => j = i
  | _, _ => False

structure DropInv (w : World V) : Prop where
  holders : HolderInv w
  awake : ∀ p q i, w.procs p = some q → q.pc.claims i → (w.table.slots i).state = .awake
  alone : ∀ p q p' q' i, w.procs p = some q → w.procs p' = some q' → q.pc.claims i →
    q'.pc.claims i → p = p'
  unparked : ∀ p caller i ready err, w.procs p ≠ some ⟨caller, .dropParked i ready err⟩

theorem Move.claims_back {env : Env} {t t' : Table V} {pc pc' : Pc V} {evs : List Event} {i : ℕ}
    (hm : Move env t pc t' pc' evs) (h : pc'.claims i) :
    (∃ err, pc = .release i err) ∨ ∃ ready err, pc = .dropParked i ready err := by
  cases hm with
  | release =>
    obtain rfl : i = _ := h
    exact .inl ⟨_, rfl⟩
  | dropUnpark =>
    obtain rfl : i = _ := h
    exact .inr ⟨_, _, rfl⟩
  | @closed _ after _ => cases after <;> exact h.elim
  | _ => exact h.elim

theorem Move.dropParked_back {env : Env} {t t' : Table V} {pc pc' : Pc V} {evs : List Event}
    {i ready : ℕ} {err : Option OpenError} (hm : Move env t pc t' pc' evs)
    (h : pc' = .dropParked i ready err) : pc.claims i ∧ (t.slots i).state = .busy := by
  cases hm with
  | dropPark hs =>
    injection h with hi _ _
    subst hi
    exact ⟨rfl, hs⟩
  | @closed _ after _ => cases after <;> cases h
  | _ => cases h

theorem HolderInv.awake_stays {w : World V} {p i : ℕ} {caller : Caller} {pc pc' : Pc V}
    {t : Table V} {evs : List Event} (h : HolderInv w) (hp : w.procs p = some ⟨caller, pc⟩)
    (hm : Move (w.env p caller) w.table pc t pc' evs) (hpc : ¬ pc.claims i)
    (hs : (w.table.slots i).state = .awake) : (t.slots i).state = .awake := by
  have hno := h.mapped.noReset p _ hp
  have hunmade : i ≠ w.table.nextSlot := by
    rintro rfl
    rw [(h.mapped.owners.unmade (le_refl _)).1] at hs
    cases hs
  have hslot := hm.slot i
  generalize t.slots i = s at hslot
  cases hslot with
  | same | held | released => exact hs
  | put | woken => rfl
  | registered hi | closer hi => exact absurd hi hunmade
  | reclaimed ha | enforced ha | disposed ha =>
    rw [hs] at ha
    cases ha
  | failed | settled | armed | broke | unmapped =>
    exact absurd hs (h.not_awake hp (if_pos rfl))
  | claimed => exact absurd rfl hpc
  | cleared | reset => exact absurd trivial hno

namespace DropInv

variable {w : World V} {p : ℕ} {caller : Caller} {pc pc' : Pc V} {t : Table V}
  {evs : List Event} {i : ℕ}

theorem of_spawn (h : DropInv w) {w' : World V} (hh : HolderInv w')
    (hslots : w'.table.slots = w.table.slots)
    (hprocs : w'.procs = update w.procs w.next (some ⟨caller, pc⟩))
    (hclaims : ∀ i, ¬ pc.claims i) (hpark : ∀ i ready err, pc ≠ .dropParked i ready err) :
    DropInv w' := by
  have hback : ∀ {q x i}, w'.procs q = some x → x.pc.claims i → w.procs q = some x := by
    intro q x i hq hx
    rcases update_eq_some (hprocs ▸ hq) with ⟨_, rfl⟩ | ⟨_, hq⟩
    · exact absurd hx (hclaims i)
    · exact hq
  refine ⟨hh, fun q x i hq hx => ?_, fun q x q' x' i hq hq' hx hx' => ?_,
    fun q c i ready err hq => ?_⟩
  · rw [hslots]
    exact h.awake q x i (hback hq hx) hx
  · exact h.alone q x q' x' i (hback hq hx) (hback hq' hx') hx hx'
  · rcases update_eq_some (hprocs ▸ hq) with ⟨_, hx⟩ | ⟨_, hq⟩
    · injection hx with _ hx
      exact hpark i ready err hx.symm
    · exact h.unparked q c i ready err hq

theorem released_alone (h : DropInv w) {inp : Input V} {err : Option OpenError}
    (hap : DropsApart w (.run p inp)) (hp : w.procs p = some ⟨caller, .release i err⟩) {q : ℕ}
    {x : Proc V} (hq : w.procs q = some x) : ¬ x.pc.claims i := by
  intro hx
  have hrel : w.releases (.run p inp) = some i := by simp only [World.releases, hp]
  have hlt : q < w.next := by
    by_contra hge
    rw [h.holders.mapped.owners.unborn q (Nat.not_lt.mp hge)] at hq
    cases hq
  have hfalse := hap i hrel q hlt
  obtain ⟨c, pc⟩ := x
  cases pc with
  | claimDrop j err' =>
    obtain rfl : i = j := hx
    simp only [World.releasedOf, hq, beq_self_eq_true] at hfalse
    cases hfalse
  | _ => exact hx.elim

theorem move (h : DropInv w) {inp : Input V} (hap : DropsApart w (.run p inp))
    (hp : w.procs p = some ⟨caller, pc⟩) (hm : Move (w.env p caller) w.table pc t pc' evs)
    (hh : HolderInv (w.moved p caller t pc' evs)) : DropInv (w.moved p caller t pc' evs) := by
  -- What this process claims now, it has just released.
  have hmine : ∀ {i}, pc'.claims i → ∃ err, pc = .release i err := by
    intro i hi
    refine (hm.claims_back hi).resolve_right ?_
    rintro ⟨ready, err, rfl⟩
    exact h.unparked p caller i ready err hp
  refine ⟨hh, fun q x i hq hx => ?_, fun q x q' x' i hq hq' hx hx' => ?_,
    fun q c i ready err hq => ?_⟩
  · rcases World.procs_moved_back hq with ⟨rfl, rfl⟩ | ⟨hqp, hq⟩
    · obtain ⟨err, rfl⟩ := hmine hx
      exact h.holders.awake_stays hp hm id (h.holders.bound q _ i hp rfl)
    · exact h.holders.awake_stays hp hm (fun hc => hqp (h.alone q x p _ i hq hp hx hc))
        (h.awake q x i hq hx)
  · rcases World.procs_moved_back hq with ⟨rfl, rfl⟩ | ⟨_, hq⟩
    · obtain ⟨err, rfl⟩ := hmine hx
      rcases World.procs_moved_back hq' with ⟨rfl, _⟩ | ⟨_, hq'⟩
      · rfl
      · exact absurd hx' (h.released_alone hap hp hq')
    · rcases World.procs_moved_back hq' with ⟨_, rfl⟩ | ⟨_, hq'⟩
      · obtain ⟨err, rfl⟩ := hmine hx'
        exact absurd hx (h.released_alone hap hp hq)
      · exact h.alone q x q' x' i hq hq' hx hx'
  · rcases World.procs_moved_back hq with ⟨rfl, hx⟩ | ⟨_, hq⟩
    · injection hx with _ hx
      obtain ⟨hclaims, hs⟩ := hm.dropParked_back hx.symm
      rw [h.awake q _ i hp hclaims] at hs
      cases hs
    · exact h.unparked q c i ready err hq

theorem init (grace : ℤ) : DropInv (World.init (V := V) grace) where
  holders := .init grace
  awake := fun _ _ _ hp => absurd hp World.procs_init
  alone := fun _ _ _ _ _ hp => absurd hp World.procs_init
  unparked := fun _ _ _ _ _ => World.procs_init

theorem step {w' : World V} {a : Action V} (h : DropInv w)
    (ha : DropsApart w a ∧ a.isReset = false) (hs : w.step a = some w') : DropInv w' := by
  have hh := h.holders.step ha.2 hs
  cases World.step_cases hs with
  | openKey => exact h.of_spawn hh rfl rfl (fun _ => id) nofun
  | cancel | tick => exact ⟨hh, h.awake, h.alone, h.unparked⟩
  | reset => cases ha.2
  | fire => exact h.of_spawn hh rfl rfl (fun _ => id) nofun
  | run hp hm => exact h.move ha.1 hp hm hh

end DropInv

/-! ## Expiry under zero grace -/

structure ZeroGraceInv (w : World V) : Prop where
  mapped : MappedInv w
  zero : w.table.grace = 0
  unarmed : ∀ u, (w.table.timers u).status ≠ .armed
  /-- A slot about to expire sleeps out of any Open's reach. -/
  asleep : ∀ p q i, w.procs p = some q → q.pc.expires i →
    (w.table.slots i).state = .asleep ∧ ∀ k, w.table.items k ≠ some i
  alone : ∀ p q p' q' i, w.procs p = some q → w.procs p' = some q' → q.pc.expires i →
    q'.pc.expires i → p = p'

theorem Move.expires_back {env : Env} {t t' : Table V} {pc pc' : Pc V} {evs : List Event} {i : ℕ}
    (hm : Move env t pc t' pc' evs) (h : pc'.expires i) : ∃ err, pc = .slept i err := by
  cases hm with
  | parkUnmapped | parkZero =>
    obtain rfl : i = _ := h
    exact ⟨_, rfl⟩
  | @closed _ after _ => cases after <;> exact h.elim
  | _ => exact h.elim

theorem Move.armed_back {env : Env} {t t' : Table V} {pc pc' : Pc V} {evs : List Event} {u : ℕ}
    (hm : Move env t pc t' pc' evs) (h : (t'.timers u).status = .armed) :
    (t.timers u).status = .armed ∨ t.grace ≠ 0 := by
  cases hm with
  | wake => exact .inl ((t.timers_stopTimer _ u).2.2.1 h).1
  | parkGrace hg => exact .inr hg
  | @putFailed i err =>
    exact .inl (congrFun ((t.endWith i (some err)).timers_unmap i).1 u ▸ h)
  | @abort i createErr => exact .inl (congrFun ((t.endWith i createErr).timers_unmap i).1 u ▸ h)
  | @expireDispose i => exact .inl (congrFun ((t.endSlot i).timers_unmap i).1 u ▸ h)
  | @unmapClosed i => exact .inl (congrFun (t.timers_unmap i).1 u ▸ h)
  | takeAll =>
    refine .inl ?_
    simp only [Table.takeAll] at h
    split at h
    · cases h
    · exact h
  | _ => exact .inl h

namespace ZeroGraceInv

variable {w : World V} {p : ℕ} {caller : Caller} {pc pc' : Pc V} {t : Table V}
  {evs : List Event} {i : ℕ}

theorem parks (h : ZeroGraceInv w) {err : Option OpenError}
    (hp : w.procs p = some ⟨caller, .slept i err⟩)
    (hm : Move (w.env p caller) w.table (.slept i err) t pc' evs) (hx : pc'.expires i) :
    (t.slots i).state = .asleep ∧ ∀ k, t.items k ≠ some i := by
  have hown := h.mapped.busy hp (if_pos rfl)
  cases hm with
  | closeMapped => exact hx.elim
  | parkUnmapped _ hun => exact absurd hown hun
  | parkGrace => exact hx.elim
  | parkZero =>
    refine ⟨?_, fun k hk => ?_⟩
    · show (update w.table.slots i _ i).state = _
      rw [update_self]
    · have hold : w.table.items k = some i := Table.items_of_forget hk
      obtain rfl := (h.mapped.mapping.keyed k i hold).2
      rw [show ((w.table.settleAsleep i).forget _).items _ = none from
        update_self ..] at hk
      cases hk

theorem asleep_stays (h : ZeroGraceInv w) (hp : w.procs p = some ⟨caller, pc⟩)
    (hm : Move (w.env p caller) w.table pc t pc' evs) (hpc : ¬ pc.expires i)
    (hs : (w.table.slots i).state = .asleep) (hun : ∀ k, w.table.items k ≠ some i) :
    (t.slots i).state = .asleep ∧ ∀ k, t.items k ≠ some i := by
  have hno := h.mapped.noReset p _ hp
  have hclaim : ∀ {c}, pc.claim i ≠ some c := fun hc =>
    h.mapped.owners.not_resting hp hc .asleep hs
  have hunmade : i ≠ w.table.nextSlot := by
    rintro rfl
    rw [(h.mapped.owners.unmade (le_refl _)).1] at hs
    cases hs
  refine ⟨?_, fun k hk => ?_⟩
  · have hslot := hm.slot i
    generalize hs' : t.slots i = s at hslot
    cases hslot with
    | same | released => exact hs
    | settled | armed => rfl
    | registered hi | closer hi => exact absurd hi hunmade
    | held ha | claimed ha =>
      rw [hs] at ha
      cases ha
    | reclaimed =>
      cases hm with
      | wake _ hkey => exact absurd hkey (hun _)
    | put | failed | woken | broke | unmapped => exact absurd (if_pos rfl) hclaim
    | enforced | disposed => exact absurd rfl hpc
    | cleared | reset => exact absurd trivial hno
  · rcases hm.items_back hk with hold | ⟨hnew | hfill, _⟩
    · exact hun k hold
    · exact hunmade hnew
    · obtain ⟨phs, hc⟩ := Pc.claim_of_fills hfill
      exact hclaim hc

theorem move (h : ZeroGraceInv w) (hp : w.procs p = some ⟨caller, pc⟩)
    (hm : Move (w.env p caller) w.table pc t pc' evs)
    (hmap : MappedInv (w.moved p caller t pc' evs)) :
    ZeroGraceInv (w.moved p caller t pc' evs) := by
  -- A slot that goes to sleep now was busy, so nobody was about to expire it.
  have hfresh : ∀ {i}, pc'.expires i → ∀ {q x}, w.procs q = some x → ¬ x.pc.expires i := by
    intro i hi q x hq hx
    obtain ⟨err, rfl⟩ := hm.expires_back hi
    exact h.mapped.owners.not_resting hp (if_pos rfl) .asleep (h.asleep q x i hq hx).1
  refine ⟨hmap, hm.grace_eq.trans h.zero, fun u hu => ?_, fun q x i hq hx => ?_,
    fun q x q' x' i hq hq' hx hx' => ?_⟩
  · exact (hm.armed_back hu).elim (h.unarmed u) (· h.zero)
  · rcases World.procs_moved_back hq with ⟨rfl, rfl⟩ | ⟨hqp, hq⟩
    · obtain ⟨err, rfl⟩ := hm.expires_back hx
      exact h.parks hp hm hx
    · obtain ⟨hs, hun⟩ := h.asleep q x i hq hx
      exact h.asleep_stays hp hm (fun hpc => hqp (h.alone q x p _ i hq hp hx hpc)) hs hun
  · rcases World.procs_moved_back hq with ⟨rfl, rfl⟩ | ⟨_, hq⟩
    · rcases World.procs_moved_back hq' with ⟨rfl, _⟩ | ⟨_, hq'⟩
      · rfl
      · exact absurd hx' (hfresh hx hq')
    · rcases World.procs_moved_back hq' with ⟨_, rfl⟩ | ⟨_, hq'⟩
      · exact absurd hx (hfresh hx' hq)
      · exact h.alone q x q' x' i hq hq' hx hx'

theorem of_spawn (h : ZeroGraceInv w) (hmap : MappedInv (w.spawn caller pc))
    (hpc : ∀ i, ¬ pc.expires i) : ZeroGraceInv (w.spawn caller pc) := by
  have hback : ∀ {q x i}, (w.spawn caller pc).procs q = some x → x.pc.expires i →
      w.procs q = some x := by
    intro q x i hq hx
    rcases update_eq_some hq with ⟨_, rfl⟩ | ⟨_, hq⟩
    · exact absurd hx (hpc i)
    · exact hq
  exact ⟨hmap, h.zero, h.unarmed, fun q x i hq hx => h.asleep q x i (hback hq hx) hx,
    fun q x q' x' i hq hq' hx hx' => h.alone q x q' x' i (hback hq hx) (hback hq' hx') hx hx'⟩

theorem init {grace : ℤ} (hgrace : (Table.new (V := V) grace).grace = 0) :
    ZeroGraceInv (World.init (V := V) grace) where
  mapped := .init grace
  zero := hgrace
  unarmed := fun _ => nofun
  asleep := fun _ _ _ hp => absurd hp World.procs_init
  alone := fun _ _ _ _ _ hp => absurd hp World.procs_init

theorem step {w' : World V} {a : Action V} (h : ZeroGraceInv w) (ha : a.isReset = false)
    (hs : w.step a = some w') : ZeroGraceInv w' := by
  have hmap := h.mapped.step ha hs
  cases World.step_cases hs with
  | openKey => exact h.of_spawn hmap fun _ => id
  | cancel | tick => exact ⟨hmap, h.zero, h.unarmed, h.asleep, h.alone⟩
  | reset => cases ha
  | fire harmed => exact absurd harmed (h.unarmed _)
  | run hp hm => exact h.move hp hm hmap

end ZeroGraceInv

/-! ## Whole runs -/

theorem asleep_of_expires {grace : ℤ} {acts : List (Action V)} {w : World V}
    (hacts : ∀ a ∈ acts, a.isReset = false)
    (hstop : Along World.step StopsInTime (World.init grace) acts)
    (hrun : run World.step (World.init grace) acts = some w) {p i : ℕ} {q : Proc V}
    (hp : w.procs p = some q) (hi : q.pc.expires i) : (w.table.slots i).state = .asleep := by
  by_cases hzero : (Table.new (V := V) grace).grace = 0
  · have hinv : ZeroGraceInv w := run_inv_along (fun _ _ _ h ha hs => h.step ha hs)
      (along_of_forall hacts _) (.init hzero) hrun
    exact (hinv.asleep p q i hp hi).1
  · have hinv : GraceInv w := run_inv_along (fun _ _ _ h ha hs => h.step ha hs)
      (hstop.and_forall hacts) (.of_ne_zero hzero) hrun
    obtain ⟨_, _, hs, _⟩ := hinv.expires p q i hp hi
    exact hs

/-- If drops of a slot do not overlap and no value is taken back under a started
callback, the guards of `claimDrop` and `claimExpire` stop nothing. -/
theorem guards_idle {grace : ℤ} {acts : List (Action V)} {w : World V}
    (hacts : ∀ a ∈ acts, a.isReset = false)
    (hdrops : Along World.step DropsApart (World.init grace) acts)
    (hstop : Along World.step StopsInTime (World.init grace) acts)
    (hrun : run World.step (World.init grace) acts = some w) : GuardsIdle w := by
  have hkept : KeptInv w := run_inv_along (fun _ _ _ h ha hs => h.step ha hs)
    (along_of_forall hacts _) (.init grace) hrun
  have hdrop : DropInv w := run_inv_along (fun _ _ _ h ha hs => h.step ha hs)
    (hdrops.and_forall hacts) (.init grace) hrun
  refine ⟨fun p caller i err hp ready => ?_, hdrop.unparked, fun p caller i err hp => ?_⟩
  · have hs := hdrop.awake p _ i hp rfl
    unfold Table.claimDrop
    simp only [hs, reduceCtorEq, if_false]
    split <;> exact nofun
  · have hs := asleep_of_expires hacts hstop hrun hp rfl
    unfold Table.claimExpire
    simp only [hs, hkept.idle i hs, and_self, if_true]
    split <;> exact nofun

/-- Two Opens share a value, the second's context ends and then the first's;
each drop finishes before the next begins, and grace runs out. -/
def dropsInTurn : List (Action Unit) :=
  createFor 0 0 "key" () Hooks.none ++ [Action.openKey "key" 1 false] ++ steps 1 3 ++
    [Action.cancel 1 "context canceled"] ++ steps 1 3 ++ dropFor 0 0 ++ steps 0 2 ++
    [Action.tick 5, .fire 0]

theorem guards_idle_dropsInTurn : ∃ w : World Unit,
    run World.step (World.init 5) dropsInTurn = some w ∧
    w.procs 2 = some ⟨.grace 0, .claimExpire 0 none⟩ ∧ GuardsIdle w :=
  ⟨_, rfl, rfl, @guards_idle Unit 5 dropsInTurn _ (by decide) (by decide +kernel)
    (by decide +kernel) rfl⟩

/-- Two Opens share a value and both contexts end. Both drops release before
either claims, and the first of them is in Sleep when the second claims. -/
def twoDrops : List (Action Unit) :=
  createFor 0 0 "key" () Hooks.none ++ [Action.openKey "key" 1 false] ++ steps 1 3 ++
    [Action.cancel 0 "context canceled", .cancel 1 "context canceled"] ++ steps 0 2 ++
    steps 1 2 ++ steps 0 2

/-- The callback starts, and an Open takes the value back before it locks. -/
def lateCallback : List (Action Unit) :=
  sleepAndFire ++ [Action.openKey "key" 1 false] ++ steps 2 1

/-- Both guards are reached without Reset. -/
theorem guards_reached :
    (∃ w : World Unit, run World.step (World.init 5) twoDrops = some w ∧
      (∀ a ∈ twoDrops, a.isReset = false) ∧
      w.procs 1 = some ⟨.opener "key" 1 false, .claimDrop 0 none⟩ ∧
      (w.table.claimDrop 0).2 = .park 1) ∧
    ∃ w : World Unit, run World.step (World.init 5) lateCallback = some w ∧
      (∀ a ∈ lateCallback, a.isReset = false) ∧
      w.procs 1 = some ⟨.grace 0, .claimExpire 0 none⟩ ∧ (w.table.claimExpire 0).2 = .skip :=
  ⟨⟨_, rfl, by decide, rfl, by decide +kernel⟩, ⟨_, rfl, by decide, rfl, by decide +kernel⟩⟩

end MiddlewareUtils.Reclaim
