import MiddlewareUtils.Proofs.ReclaimHolders

/-!
# One copy at a time

A value stored with `EnforceCloseBeforeOpen` keeps its key until its Close
has returned, so no create of that key starts in between. The key is kept in
three ways: the slot stays busy, it goes from asleep back to busy, or a
closer takes its place. All three come to the same thing here. A create
starts in a busy slot, and that slot is what its key maps to; so any other
slot of the key is unmapped, and an unmapped slot with the flag has ended.
It has then been closed, or its Close is under way, and in the second case
the process that runs it keeps a closer mapped to the very same key.

The flag is only known once create has returned. Until then the slot is busy
and mapped, and `Overtakes` says that no other create of the key has started
since its own.
-/

namespace MiddlewareUtils.Reclaim

open Lib Function

variable {V : Type}

def Table.enforces (t : Table V) (j : ℕ) : Prop :=
  (t.slots j).hooks.enforceCloseBeforeOpen = true

/-- A create of a key starts only after the Close of every earlier
incarnation of the key that is in `E` has returned. -/
def ClosedFirst (E : ℕ → Prop) (pre : List Event) (e : Event) : Prop :=
  ∀ i k, e = .start .create i k → ∀ j, j ≠ i → .start .create j k ∈ pre → E j →
    ∃ ok, .ret .close j k ok ∈ pre

/-- Another create of the key starts after the create of `j`. -/
def Overtakes (j : ℕ) (pre : List Event) (e : Event) : Prop :=
  ∃ i k, e = .start .create i k ∧ j ≠ i ∧ .start .create j k ∈ pre

/-! ## Hooks along a step -/

theorem Table.Touches.enforces {t t' : Table V} {i : ℕ} {s : Slot V} (ht : t.Touches i s t')
    (hs : s.hooks = (t.slots i).hooks) {j : ℕ} (hj : t'.enforces j) : t.enforces j := by
  unfold Table.enforces at hj ⊢
  rw [ht.slots] at hj
  by_cases hji : j = i
  · rw [hji, update_self, hs] at hj
    rw [hji]
    exact hj
  · rwa [update_of_ne hji] at hj

theorem Move.enforces {env : Env} {t t' : Table V} {pc pc' : Pc V} {evs : List Event}
    (hm : Move env t pc t' pc' evs) {j : ℕ} (hj : t'.enforces j) :
    t.enforces j ∨ ∃ v hooks, pc = .publishPut j v hooks := by
  cases hm with
  | @create key _ _ _ _ =>
    by_cases hn : j = t.nextSlot
    · unfold Table.enforces at hj
      rw [hn, show (t.register key).slots t.nextSlot = _ from update_self ..] at hj
      cases hj
    · unfold Table.enforces at hj
      rw [show (t.register key).slots j = _ from update_of_ne hn ..] at hj
      exact .inl hj
  | bind => exact .inl ((t.touches_hold _).enforces rfl hj)
  | wake => exact .inl ((t.touches_reclaim _).enforces rfl hj)
  | @put i v hooks =>
    by_cases hi : j = i
    · exact .inr ⟨v, hooks, by rw [hi]⟩
    · unfold Table.enforces at hj
      rw [(t.touches_publishPut i v hooks).slots, update_of_ne hi] at hj
      exact .inl hj
  | putFailed | abort => exact .inl ((t.touches_endBusySlot ..).enforces rfl hj)
  | publishWake => exact .inl ((t.touches_publishWake _).enforces rfl hj)
  | release => exact .inl ((t.touches_releaseHolder _).enforces rfl hj)
  | dropClaim | expireEnforce => exact .inl ((t.touches_enterBusy _).enforces rfl hj)
  | parkUnmapped | parkZero => exact .inl ((t.touches_settleAsleep _).enforces rfl hj)
  | parkGrace => exact .inl ((t.touches_armGrace ..).enforces rfl hj)
  | @swap i createErr _ _ =>
    by_cases hn : j = t.nextSlot
    · unfold Table.enforces at hj
      rw [hn, show (t.installCloser i createErr).slots t.nextSlot = _ from
        update_self ..] at hj
      cases hj
    · unfold Table.enforces at hj
      rw [show (t.installCloser i createErr).slots j = _ from update_of_ne hn ..] at hj
      exact .inl ((t.touches_endWith i createErr).enforces rfl hj)
  | expireDispose => exact .inl (((t.touches_endSlot _).unmap _).enforces rfl hj)
  | unmapClosed => exact .inl ((t.touches_unmapLocked _).enforces rfl hj)
  | takeAll =>
    unfold Table.enforces Table.takeAll at hj
    dsimp only at hj
    split at hj <;> exact .inl hj
  | resetAwake | resetAsleep => exact .inl ((t.touches_endSlot _).enforces rfl hj)
  | _ => exact .inl hj

def Event.about : Event → Option (ℕ × String)
  | start _ i k | ret _ i k _ => some (i, k)
  | _ => none

theorem about_leave {p : ℕ} {err : Option OpenError} {e : Event} (he : e ∈ leave p err) :
    e.about = none := by
  cases err with
  | none => cases he
  | some err =>
    rw [List.mem_singleton.mp he]
    rfl

theorem about_left {p : ℕ} {after : AfterClose} {e : Event} (he : e ∈ after.left p) :
    e.about = none := by
  cases after with
  | finish err => exact about_leave he
  | unmap | reset => cases he

theorem Move.about_key {env : Env} {t t' : Table V} {pc pc' : Pc V} {evs : List Event}
    (hm : Move env t pc t' pc' evs) {e : Event} {j : ℕ} {k : String} (he : e ∈ evs)
    (ha : e.about = some (j, k)) : (t.slots j).key = k ∧ ∃ c, pc.claim j = some c := by
  have hone : ∀ {e' : Event} {i : ℕ}, e ∈ [e'] → e'.about = some (i, (t.slots i).key) →
      j = i ∧ (t.slots j).key = k := by
    intro e' i hmem hab
    rw [List.mem_singleton.mp hmem, hab] at ha
    injection ha with ha
    injection ha with h1 h2
    exact ⟨h1.symm, h1 ▸ h2⟩
  cases hm with
  | createStart | created | createFail | wakeStart | woken | wakePanic | sleepStart | slept
  | sleepPanic | closeStart | resetSleepStart | resetSlept =>
    obtain ⟨rfl, hk⟩ := hone he rfl
    exact ⟨hk, _, if_pos rfl⟩
  | @closed i after ok =>
    rcases List.mem_cons.mp he with rfl | he
    · obtain ⟨rfl, hk⟩ := hone (List.mem_singleton.mpr rfl) rfl
      exact ⟨hk, _, if_pos rfl⟩
    · rw [about_left he] at ha
      cases ha
  | dropStop | expireSkip | closeFinal =>
    rw [about_leave he] at ha
    cases ha
  | parkGrace =>
    rcases List.mem_cons.mp he with rfl | he
    · cases ha
    · rw [about_leave he] at ha
      cases ha
  | put => rcases List.mem_pair.mp he with rfl | rfl <;> cases ha
  | bind | wake | replay | putFailed | openedEnded | opened | release | expireEnforce
  | expireDispose =>
    rw [List.mem_singleton.mp he] at ha
    cases ha
  | _ => cases he

theorem Pc.eq_of_calling_create {pc : Pc V} {i : ℕ} (h : pc.calling = some (.create, i)) :
    pc = .createCall i := by
  cases pc with
  | createCall =>
    injection h with h
    injection h with _ h
    rw [h]
  | wakeCall | sleepCall | resetSleepCall | closeCall =>
    injection h with h
    injection h with h _
    cases h
  | _ => cases h

/-! ## The invariant -/

def Pc.creates : Pc V → ℕ → Prop
  | createRun i, j | publishPut i _ _, j => j = i
  | _, _ => False

def Pc.leavesTo : Pc V → ℕ → ℕ → Prop
  | closeReady i closer _ _, j, c => j = i ∧ c = closer
  | closeCall i (.unmap closer _), j, c | closeRun i (.unmap closer _), j, c => j = i ∧ c = closer
  | _, _, _ => False

def Pc.closesFree : Pc V → ℕ → Prop
  | closeCall i (.finish _), j | closeRun i (.finish _), j => j = i
  | _, _ => False

structure ExclusiveInv (w : World V) : Prop where
  mapped : MappedInv w
  keys : ∀ e ∈ w.log, ∀ j k, e.about = some (j, k) →
    j < w.table.nextSlot ∧ (w.table.slots j).key = k
  stored : ∀ j, w.table.enforces j → ⟨.create, .returned⟩ ∈ calls j w.log
  free : ∀ p q j, w.procs p = some q → q.pc.closesFree j → ¬ w.table.enforces j
  kept : ∀ p q j c, w.procs p = some q → q.pc.leavesTo j c →
    (w.table.slots c).key = (w.table.slots j).key
  alone : ∀ p q j, w.procs p = some q → q.pc.creates j →
    Precedes (fun pre e => ¬ Overtakes j pre e) w.log
  closedFirst : Precedes (ClosedFirst w.table.enforces) w.log

theorem Pc.claim_of_closesFree {pc : Pc V} {j : ℕ} (h : pc.closesFree j) :
    ∃ c, pc.claim j = some c := by
  unfold Pc.closesFree at h
  split at h
  · exact ⟨_, if_pos h⟩
  · exact ⟨_, if_pos h⟩
  · exact h.elim

theorem Pc.claim_of_leavesTo {pc : Pc V} {j c : ℕ} (h : pc.leavesTo j c) :
    (∃ x, pc.claim j = some x) ∧ ∃ x, pc.claim c = some x := by
  have hkeep : ∀ {i : ℕ} {x y : Claim}, ∃ z, (if c = i then some x else
      if some c = some c then some y else none) = some z := by
    intro i x y
    split
    · exact ⟨_, rfl⟩
    · exact ⟨_, if_pos rfl⟩
  unfold Pc.leavesTo at h
  split at h
  · obtain ⟨rfl, rfl⟩ := h
    exact ⟨⟨_, if_pos rfl⟩, hkeep⟩
  · obtain ⟨rfl, rfl⟩ := h
    exact ⟨⟨_, if_pos rfl⟩, hkeep⟩
  · obtain ⟨rfl, rfl⟩ := h
    exact ⟨⟨_, if_pos rfl⟩, hkeep⟩
  · exact h.elim

theorem Pc.claim_of_creates {pc : Pc V} {j : ℕ} (h : pc.creates j) :
    ∃ phs, pc.claim j = some ⟨.busy, phs⟩ := by
  unfold Pc.creates at h
  split at h
  · exact ⟨_, if_pos h⟩
  · exact ⟨_, if_pos h⟩
  · exact h.elim

theorem Pc.claim_gone {pc : Pc V} {j : ℕ} {x : Claim} (h : pc.claim j = some x)
    (hx : x.state = .gone) (hno : ¬ pc.ofReset) :
    pc.closesFree j ∨ ∃ c, pc.leavesTo j c ∧ pc.claim c = some ⟨.busy, [.keeper]⟩ := by
  have hone : ∀ {i : ℕ} {phs : List Phase}, (if j = i then some (Claim.mk .busy phs) else none)
      = some x → False := by
    intro i phs hc
    split at hc
    · rw [← Option.some.inj hc] at hx
      cases hx
    · cases hc
  -- A slot that is closed for another keeper, and not the keeper itself.
  have hkeeper : ∀ {i : ℕ} (after : AfterClose) {phs : List Phase},
      (if j = i then some (Claim.mk (after.closingState i) phs)
        else if after.keeper = some j then some ⟨.busy, [.keeper]⟩ else none) = some x →
      j = i ∧ after.keeper ≠ some i := by
    intro i after phs hc
    split at hc
    next hji =>
      rw [← Option.some.inj hc] at hx
      refine ⟨hji, fun hk => ?_⟩
      rw [show after.closingState i = .busy from if_pos hk] at hx
      cases hx
    · split at hc
      · rw [← Option.some.inj hc] at hx
        cases hx
      · cases hc
  cases pc with
  | createCall | createRun | publishPut | createFailed | wakeCall | wakeRun | publishWake
  | sleepCall | sleepRun | slept | panicked | unmapClosed => exact (hone h).elim
  | closeReady i closer ready err =>
    obtain ⟨rfl, hne⟩ := hkeeper (.unmap closer err) h
    have hcl : closer ≠ j := fun he => hne (congrArg some he)
    exact .inr ⟨closer, ⟨rfl, rfl⟩, (claim_closeReady_of_ne hcl).trans (if_pos rfl)⟩
  | closeCall i after =>
    obtain ⟨rfl, hne⟩ := hkeeper after h
    cases after with
    | unmap closer err =>
      have hcl : closer ≠ j := fun he => hne (congrArg some he)
      exact .inr ⟨closer, ⟨rfl, rfl⟩, (claim_closeCall_of_ne hcl).trans (if_pos rfl)⟩
    | finish => exact .inl rfl
    | reset => exact absurd trivial hno
  | closeRun i after =>
    obtain ⟨rfl, hne⟩ := hkeeper after h
    cases after with
    | unmap closer err =>
      have hcl : closer ≠ j := fun he => hne (congrArg some he)
      exact .inr ⟨closer, ⟨rfl, rfl⟩, (claim_closeRun_of_ne hcl).trans (if_pos rfl)⟩
    | finish => exact .inl rfl
    | reset => exact absurd trivial hno
  | resetSleepCall | resetSleepRun => exact absurd trivial hno
  | _ => cases h

namespace ExclusiveInv

variable {w : World V} {p : ℕ} {caller : Caller} {pc pc' : Pc V} {t : Table V}
  {evs : List Event} {i j : ℕ}

theorem owner_unique (h : ExclusiveInv w) {q : ℕ} {x : Proc V}
    (hp : w.procs p = some ⟨caller, pc⟩) (hq : w.procs q = some x)
    (hpc : ∃ c, pc.claim j = some c) (hx : ∃ c, x.pc.claim j = some c) : q = p := by
  obtain ⟨_, hc⟩ := hpc
  obtain ⟨_, hc'⟩ := hx
  exact h.mapped.owners.claim_unique hq hp hc' hc

theorem made (h : ExclusiveInv w) {q : ℕ} {x : Proc V} (hq : w.procs q = some x)
    (hx : ∃ c, x.pc.claim j = some c) : j < w.table.nextSlot := by
  obtain ⟨c, hc⟩ := hx
  obtain ⟨_, _, _, hin⟩ := h.mapped.owners.meets hq hc
  exact hin.made

theorem same_of_key (h : ExclusiveInv w) (hi : (w.table.slots i).state = .busy)
    (hj : (w.table.slots j).state = .busy)
    (hk : (w.table.slots j).key = (w.table.slots i).key) : j = i := by
  have hmi := h.mapped.mapping.of_busy hi
  have hmj := h.mapped.mapping.of_busy hj
  rw [hk, hmi] at hmj
  exact (Option.some.inj hmj).symm

theorem closed_of_start (h : ExclusiveInv w) (hp : w.procs p = some ⟨caller, .createCall i⟩)
    (hji : j ≠ i) (hmem : .start .create j (w.table.slots i).key ∈ w.log)
    (henf : w.table.enforces j) : ∃ ok, .ret .close j (w.table.slots i).key ok ∈ w.log := by
  have ho := h.mapped.owners
  have hkey : (w.table.slots j).key = (w.table.slots i).key := (h.keys _ hmem j _ rfl).2
  have hbusy : (w.table.slots i).state = .busy := (ho.meets hp (if_pos rfl)).1
  have hcalls := calls_ne_nil_of_start hmem
  -- The key maps to the new slot, so `j` has ended.
  have hgone : (w.table.slots j).state = .gone := by
    by_contra hne
    rcases h.mapped.mapping.mapped j hne with hm | hu
    · rw [hkey, h.mapped.mapping.of_busy hbusy] at hm
      exact hji (Option.some.inj hm).symm
    · rw [Table.enforces, hu.2.2] at henf
      cases henf
  by_cases hown : ∃ q, Owns (w.procs q) j
  · obtain ⟨q, hq⟩ := hown
    cases hproc : w.procs q with
    | none => rw [hproc] at hq; exact hq.elim
    | some x =>
      rw [hproc] at hq
      obtain ⟨c, hc⟩ := Option.ne_none_iff_exists'.mp hq
      have hst := (ho.meets hproc hc).1
      rw [show (w.view j).state = .gone from hgone] at hst
      rcases Pc.claim_gone hc hst.symm (h.mapped.noReset q x hproc) with hfree | ⟨k, hto, hkc⟩
      · exact absurd henf (h.free q x j hproc hfree)
      · -- The keeper is busy under the same key, so it is the new slot, which is `p`'s.
        have hkb : (w.table.slots k).state = .busy :=
          (ho.meets hproc hkc).1
        obtain rfl := h.same_of_key hbusy hkb ((h.kept q x j k hproc hto).trans hkey)
        obtain rfl := h.owner_unique hp hproc ⟨_, if_pos rfl⟩ ⟨_, hkc⟩
        rw [hp] at hproc
        cases hproc
        exact hto.elim
  · cases ho.owned.rests j fun q hq => hown ⟨q, hq⟩ with
    | resting hr hst _ =>
      rw [show (w.view j).state = .gone from hgone] at hst
      subst hst
      cases hr
    | unmade _ _ hnil => exact absurd hnil hcalls
    | ended hph _ hin =>
      rcases hph with rfl | rfl | rfl
      · have hret := h.stored j henf
        have htr : Trace .failed (calls j w.log) := hin.trace
        generalize calls j w.log = cs at hret htr
        cases htr
        simp at hret
      · have htr : Trace .closed (calls j w.log) := hin.trace
        have hc : ∃ c ∈ calls j w.log, c.hook = .close ∧ c.outcome ≠ .running := by
          generalize calls j w.log = cs at htr
          cases htr with
          | @closed _ cs ok _ _ =>
            exact ⟨_, List.mem_append_right _ (List.mem_singleton.mpr rfl), rfl,
              outcomeOf_ne_running⟩
        obtain ⟨c, hc, hhook, hover⟩ := hc
        obtain ⟨k, ok, hret⟩ := ret_of_settled hc hover
        rw [hhook] at hret
        have hk := (h.keys _ hret j k rfl).2
        rw [← hkey, hk]
        exact ⟨ok, hret⟩
      · have htr : Trace .keeper (calls j w.log) := hin.trace
        generalize calls j w.log = cs at hcalls htr
        cases htr
        exact absurd rfl hcalls

theorem extend {P : List Event → Event → Prop} (hP : Precedes P w.log)
    (hm : Move (w.env p caller) w.table pc t pc' evs)
    (hother : ∀ pre e, (∀ i k, e ≠ .start .create i k) → P pre e)
    (hstart : ∀ i, pc = .createCall i → P w.log (.start .create i (w.table.slots i).key)) :
    Precedes P (w.log ++ evs) := by
  by_cases hst : ∃ i k, Event.start .create i k ∈ evs
  · obtain ⟨i, k, hmem⟩ := hst
    obtain ⟨rfl, hcall⟩ := hm.start_calling hmem
    have hkey := (hm.about_key hmem (e := .start .create i k) rfl).1
    rw [← hkey]
    exact hP.snoc (hstart i (Pc.eq_of_calling_create hcall))
  · exact hP.append fun e he pre => hother pre e fun i k hek => hst ⟨i, k, hek ▸ he⟩

section Step

variable (h : ExclusiveInv w) (hp : w.procs p = some ⟨caller, pc⟩)
  (hm : Move (w.env p caller) w.table pc t pc' evs)
include h hp hm

theorem free_move (hj : pc'.closesFree j) : ¬ t.enforces j := by
  have hstay : ∀ {i}, w.table.enforces i ∨ (∃ v hooks, pc = .publishPut i v hooks) →
      (∀ v hooks, pc ≠ .publishPut i v hooks) → w.table.enforces i := by
    rintro i (he | ⟨v, hooks, hpc⟩) hne
    · exact he
    · exact absurd hpc (hne v hooks)
  intro henf
  have hold := hm.enforces henf
  cases hm with
  | abort hfalse | expireDispose _ _ hfalse =>
    obtain rfl : j = _ := hj
    have ht := hstay hold nofun
    rw [Table.enforces, hfalse] at ht
    cases ht
  | @closeStart i after =>
    refine h.free p _ j hp ?_ (hstay hold nofun)
    cases after with
    | finish => exact hj
    | unmap | reset => exact hj.elim
  | @closed i after ok =>
    cases after with
    | finish | unmap | reset => exact hj.elim
  | _ => exact hj.elim

theorem kept_move {c : ℕ} (hj : pc'.leavesTo j c) : (t.slots c).key = (t.slots j).key := by
  cases hm with
  | @swap i createErr _ _ =>
    obtain ⟨rfl, rfl⟩ := hj
    have hlt := h.made hp ⟨_, claim_panicked⟩
    rw [show (w.table.installCloser j createErr).slots w.table.nextSlot = _ from
      update_self .., show (w.table.installCloser j createErr).slots j = _ from
      (update_of_ne hlt.ne ..).trans (update_self ..)]
    rfl
  | closeMapped | expireEnforce =>
    obtain ⟨rfl, rfl⟩ := hj
    rfl
  | closeReady => exact h.kept p _ j c hp hj
  | @closeStart i after =>
    refine h.kept p _ j c hp ?_
    cases after with
    | unmap => exact hj
    | finish | reset => exact hj.elim
  | @closed i after ok =>
    cases after with
    | finish | unmap | reset => exact hj.elim
  | _ => exact hj.elim

theorem alone_move (hj : pc'.creates j) :
    Precedes (fun pre e => ¬ Overtakes j pre e) (w.log ++ evs) := by
  cases hm with
  | @createStart i =>
    obtain rfl : j = i := hj
    obtain ⟨_, ph, hmem, hin⟩ := h.mapped.owners.meets hp (i := j) (if_pos rfl)
    rw [List.mem_singleton.mp hmem] at hin
    have hnone : ∀ k, Event.start .create j k ∉ w.log := by
      intro k hk
      have htr : Trace .unborn (calls j w.log) := hin.trace
      have hne := calls_ne_nil_of_start hk
      generalize calls j w.log = cs at htr hne
      cases htr
      exact hne rfl
    refine Precedes.snoc ?_ fun ⟨i, k, he, hne, _⟩ => ?_
    · rintro pre e post hlog ⟨i, k, _, _, hmem⟩
      exact hnone k (hlog ▸ List.mem_append_left _ hmem)
    · injection he with _ he _
      exact hne he
  | created =>
    refine (h.alone p _ j hp hj).append fun e he pre hov => ?_
    obtain ⟨i, k, hek, _, _⟩ := hov
    rw [List.mem_singleton.mp he] at hek
    cases hek
  | @closed i after ok =>
    cases after with
    | finish | unmap | reset => exact hj.elim
  | _ => exact hj.elim

theorem move (hmap : MappedInv (w.moved p caller t pc' evs)) :
    ExclusiveInv (w.moved p caller t pc' evs) := by
  have hself : ∀ {x}, (w.moved p caller t pc' evs).procs p = some x → x = ⟨caller, pc'⟩ :=
    fun hx => (Option.some.inj (World.procs_moved_self.symm.trans hx)).symm
  have hne : ∀ {q x}, q ≠ p → (w.moved p caller t pc' evs).procs q = some x →
      w.procs q = some x :=
    fun hq hx => (World.procs_moved_of_ne hq).symm.trans hx
  refine ⟨hmap, fun e he j k ha => ?_, fun j hj => ?_, fun q x j hq hx => ?_,
    fun q x j c hq hx => ?_, fun q x j hq hx => ?_, ?_⟩
  · rcases List.mem_append.mp he with he | he
    · obtain ⟨hlt, hk⟩ := h.keys e he j k ha
      exact ⟨hlt.trans_le hm.nextSlot_le, (hm.key_eq hlt).trans hk⟩
    · obtain ⟨hk, hc⟩ := hm.about_key he ha
      have hlt := h.made hp hc
      exact ⟨hlt.trans_le hm.nextSlot_le, (hm.key_eq hlt).trans hk⟩
  · rcases hm.enforces hj with hold | ⟨v, hooks, rfl⟩
    · exact settled_mem_append (h.stored j hold) nofun
    · obtain ⟨_, ph, hmem, hin⟩ := h.mapped.owners.meets hp (i := j) (if_pos rfl)
      rw [List.mem_singleton.mp hmem] at hin
      exact settled_mem_append (hin.trace.created_of_awake (Or.inl rfl)) nofun
  · by_cases hqp : q = p
    · subst hqp
      rw [hself hq] at hx
      exact h.free_move hp hm hx
    · intro henf
      rcases hm.enforces henf with hold | ⟨v, hooks, rfl⟩
      · exact h.free q x j (hne hqp hq) hx hold
      · exact hqp (h.owner_unique hp (hne hqp hq) ⟨_, if_pos rfl⟩ (Pc.claim_of_closesFree hx))
  · by_cases hqp : q = p
    · subst hqp
      rw [hself hq] at hx
      exact h.kept_move hp hm hx
    · obtain ⟨hj, hc⟩ := Pc.claim_of_leavesTo hx
      exact (hm.key_eq (h.made (hne hqp hq) hc)).trans
        ((h.kept q x j c (hne hqp hq) hx).trans (hm.key_eq (h.made (hne hqp hq) hj)).symm)
  · by_cases hqp : q = p
    · subst hqp
      rw [hself hq] at hx
      exact h.alone_move hp hm hx
    · obtain ⟨phs, hc⟩ := Pc.claim_of_creates hx
      refine extend (h.alone q x j (hne hqp hq) hx) hm
        (fun pre e hek ⟨i, k, he, _, _⟩ => hek i k he) ?_
      rintro i rfl ⟨i', k, he, hji, hmem⟩
      injection he with _ hi hk
      subst hi hk
      -- Both slots are busy under one key.
      exact hji (h.same_of_key (h.mapped.owners.meets hp (if_pos rfl)).1
        (h.mapped.owners.meets (hne hqp hq) hc).1 (h.keys _ hmem j _ rfl).2)
  · have hP : Precedes (ClosedFirst t.enforces) w.log := by
      rintro pre e post hlog i k rfl j hji hmem henf
      rcases hm.enforces henf with hold | ⟨v, hooks, rfl⟩
      · exact h.closedFirst pre _ post hlog i k rfl j hji hmem hold
      · exact absurd ⟨i, k, rfl, hji, hmem⟩ (h.alone p _ j hp rfl pre _ post hlog)
    refine extend hP hm (fun pre e hek i k he => absurd he (hek i k)) ?_
    rintro i rfl i' k he j hji hmem henf
    injection he with _ hi hk
    subst hi hk
    refine h.closed_of_start hp hji hmem ?_
    exact (hm.enforces henf).resolve_right nofun

/-! ## Whole runs -/

end Step

theorem init (grace : ℤ) : ExclusiveInv (World.init (V := V) grace) where
  mapped := .init grace
  keys := nofun
  stored := nofun
  free := fun _ _ _ hp => absurd hp World.procs_init
  kept := fun _ _ _ _ hp => absurd hp World.procs_init
  alone := fun _ _ _ hp => absurd hp World.procs_init
  closedFirst := Precedes.nil

theorem spawned (h : ExclusiveInv w) {w' : World V} (hmap : MappedInv w')
    (hslots : w'.table.slots = w.table.slots) (hnext : w'.table.nextSlot = w.table.nextSlot)
    (hlog : w'.log = w.log)
    (hprocs : w'.procs = update w.procs w.next (some ⟨caller, pc⟩))
    (hpc : ∀ i, pc.claim i = none) : ExclusiveInv w' := by
  have hback : ∀ {q x i}, w'.procs q = some x → (∃ c, x.pc.claim i = some c) →
      w.procs q = some x := by
    rintro q x i hq ⟨c, hc⟩
    rcases World.procs_update_back (hprocs ▸ hq) with rfl | hq
    · rw [hpc i] at hc
      cases hc
    · exact hq
  have henf : ∀ {j}, w'.table.enforces j ↔ w.table.enforces j := by
    intro j
    unfold Table.enforces
    rw [hslots]
  refine ⟨hmap, ?_, fun j hj => ?_, fun q x j hq hx hj => ?_, fun q x j c hq hx => ?_,
    fun q x j hq hx => ?_, ?_⟩
  · rw [hlog, hslots, hnext]
    exact h.keys
  · rw [hlog]
    exact h.stored j (henf.mp hj)
  · exact h.free q x j (hback hq (Pc.claim_of_closesFree hx)) hx (henf.mp hj)
  · rw [hslots]
    exact h.kept q x j c (hback hq (Pc.claim_of_leavesTo hx).1) hx
  · obtain ⟨phs, hc⟩ := Pc.claim_of_creates hx
    rw [hlog]
    exact h.alone q x j (hback hq ⟨_, hc⟩) hx
  · rw [hlog]
    intro pre e post hl i k he j hji hmem hj
    exact h.closedFirst pre e post hl i k he j hji hmem (henf.mp hj)

theorem step {w' : World V} {a : Action V} (h : ExclusiveInv w) (ha : a.isReset = false)
    (hs : w.step a = some w') : ExclusiveInv w' := by
  have hmap := h.mapped.step ha hs
  cases World.step_cases hs with
  | openKey => exact h.spawned hmap rfl rfl rfl rfl fun _ => rfl
  | @cancel ctx err hc =>
    refine ⟨hmap, fun e he j k hab => ?_, fun j hj => settled_mem_append (h.stored j hj) nofun,
      h.free, h.kept, fun q x j hq hx => ?_, h.closedFirst.snoc nofun⟩
    · rcases List.mem_append.mp he with he | he
      · exact h.keys e he j k hab
      · rw [List.mem_singleton.mp he] at hab
        cases hab
    · exact (h.alone q x j hq hx).snoc nofun
  | reset => cases ha
  | tick => exact ⟨hmap, h.keys, h.stored, h.free, h.kept, h.alone, h.closedFirst⟩
  | fire => exact h.spawned hmap rfl rfl rfl rfl fun _ => rfl
  | run hp hm => exact h.move hp hm hmap

end ExclusiveInv

/-- Between the create of an incarnation that stored the flag and the return
of its Close, no create of its key starts. -/
theorem close_before_open {grace : ℤ} {acts : List (Action V)} {w : World V}
    (hacts : ∀ a ∈ acts, a.isReset = false)
    (hrun : run World.step (World.init grace) acts = some w) {pre post : List Event}
    {i j : ℕ} {key : String} (hlog : w.log = pre ++ .start .create i key :: post) (hji : j ≠ i)
    (hcreate : .start .create j key ∈ pre)
    (henf : (w.table.slots j).hooks.enforceCloseBeforeOpen = true) :
    ∃ ok, .ret .close j key ok ∈ pre := by
  have h : ExclusiveInv w := run_inv_along (fun _ _ _ h ha hs => h.step ha hs)
    (along_of_forall hacts _) (.init grace) hrun
  exact h.closedFirst pre _ post hlog i key rfl j hji hcreate henf

/-- A value with the flag is opened and dropped, Sleep panics, and a second
Open waits for the closer before it creates. -/
def openAfterClose : List (Action Unit) :=
  createFor 0 0 "key" () ⟨true, false, false, true⟩ ++ dropFor 0 0 ++
    [Action.run 0 (.panicked "sleep")] ++
    [Action.run 0 .none, .openKey "key" 1 false, .run 1 .none] ++
    steps 0 5 ++ steps 1 4

theorem close_before_open_sleepPanic : ∃ (w : World Unit) (pre : List Event),
    run World.step (World.init 0) openAfterClose = some w ∧
    w.log = pre ++ [Event.start .create 2 "key"] ∧ .start .create 0 "key" ∈ pre ∧
    ∃ ok, .ret .close 0 "key" ok ∈ pre :=
  ⟨_, _, rfl, rfl, by decide +kernel,
    @close_before_open Unit 0 openAfterClose _ (by decide) rfl _ [] 2 0 "key" rfl (by decide)
      (by decide +kernel) (by decide +kernel)⟩

end MiddlewareUtils.Reclaim
