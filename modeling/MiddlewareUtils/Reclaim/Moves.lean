import MiddlewareUtils.Reclaim.Machine

/-!
# What a step of a process can be

`advance` taken apart once: `Move` has one constructor for each branch, with
the guard the branch was entered under and the table, program counter and
events it leaves. `Move.of_advance` is the only proof that looks inside
`advance`, and `World.step_cases` the only one that looks inside
`World.step`; the invariants go by cases on what they return.

The two outcomes of a failed create are one constructor here, and so are the
two outcomes of a hook whose panic changes nothing, Close and the Sleep of a
Reset.
-/

namespace MiddlewareUtils.Reclaim

open Function

variable {V : Type}

/-- Where a process is after Close. -/
def AfterClose.next : AfterClose → Pc V
  | unmap i err => .unmapClosed i err
  | finish _ => .finished
  | reset rest => .resetNext rest

def AfterClose.left (p : ℕ) : AfterClose → List Event
  | finish err => leave p err
  | unmap _ _ | reset _ => []

inductive Move (env : Env) (t : Table V) : Pc V → Table V → Pc V → List Event → Prop
  | create {key ctx polls} (hc : env.caller = .opener key ctx polls)
      (hkey : t.items key = none) :
      Move env t .lookup (t.register key) (.createCall t.nextSlot) []
  | bind {key ctx polls i} (hc : env.caller = .opener key ctx polls)
      (hkey : t.items key = some i) (hs : (t.slots i).state = .awake) :
      Move env t .lookup (t.hold i) (.finishBind i) [.bind env.p i]
  | wake {key ctx polls i} (hc : env.caller = .opener key ctx polls)
      (hkey : t.items key = some i) (hs : (t.slots i).state = .asleep) :
      Move env t .lookup (t.reclaim i) (.wakeCall i) [.bind env.p i]
  | park {key ctx polls i} (hc : env.caller = .opener key ctx polls)
      (hkey : t.items key = some i) (hs : (t.slots i).state = .busy) :
      Move env t .lookup t (.parked i (t.slots i).ready) []
  | retry {key ctx polls i} (hc : env.caller = .opener key ctx polls)
      (hkey : t.items key = some i) (hs : (t.slots i).state = .gone) :
      Move env t .lookup (t.forget key) .lookup []
  | unpark {i ready} (hready : t.chans ready ≠ 0) :
      Move env t (.parked i ready) t (.createErrOf i) []
  | replay {i e} (he : (t.slots i).createErr = some e) :
      Move env t (.createErrOf i) t .finished [.failed env.p e]
  | again {i} (he : (t.slots i).createErr = none) :
      Move env t (.createErrOf i) t .lookup []
  | createStart {i} :
      Move env t (.createCall i) t (.createRun i) [.start .create i (t.slots i).key]
  | created {i v hooks} :
      Move env t (.createRun i) t (.publishPut i v hooks) [.ret .create i (t.slots i).key true]
  | createFail {i err} :
      Move env t (.createRun i) t (.createFailed i err) [.ret .create i (t.slots i).key false]
  | put {i v hooks} :
      Move env t (.publishPut i v hooks) (t.publishPut i v hooks) (.finishBind i)
        [.stored i hooks, .bind env.p i]
  | putFailed {i err} :
      Move env t (.createFailed i err) (t.endBusySlot i (some err)) .finished
        [.failed env.p err]
  | wakeStart {i} :
      Move env t (.wakeCall i) t (.wakeRun i) [.start .wake i (t.slots i).key]
  | woken {i} :
      Move env t (.wakeRun i) t (.publishWake i) [.ret .wake i (t.slots i).key true]
  | wakePanic {i err} (hset : (t.slots i).hooks.wake = true) :
      Move env t (.wakeRun i) t (.panicked i (some err) (some err))
        [.ret .wake i (t.slots i).key false]
  | publishWake {i} : Move env t (.publishWake i) (t.publishWake i) (.finishBind i) []
  | refuse {key ctx polls i err} (hc : env.caller = .opener key ctx polls)
      (he : env.ctxErr ctx = some err) :
      Move env t (.finishBind i) t (.release i (some (.context err))) []
  | keep {key ctx polls i} (hc : env.caller = .opener key ctx polls)
      (he : env.ctxErr ctx = none) :
      Move env t (.finishBind i) t (.dropWhenDone i) []
  | openedEnded {key ctx i} (hc : env.caller = .opener key ctx true)
      (hfin : (t.slots i).finished = false) :
      Move env t (.dropWhenDone i) t .finished [.opened env.p i ctx]
  | opened {key ctx polls i} (hc : env.caller = .opener key ctx polls) :
      Move env t (.dropWhenDone i) t (.live i) [.opened env.p i ctx]
  | poll {key ctx i} (hc : env.caller = .opener key ctx true) :
      Move env t (.live i) t (.watchErr i) []
  | pollEnded {key ctx i} (hc : env.caller = .opener key ctx true)
      (hfin : (t.slots i).finished = false) :
      Move env t (.live i) t .finished []
  | afterFunc {key ctx i} (hc : env.caller = .opener key ctx false)
      (he : (env.ctxErr ctx).isSome) :
      Move env t (.live i) t (.release i none) []
  | watchDone {key ctx polls i} (hc : env.caller = .opener key ctx polls)
      (he : (env.ctxErr ctx).isSome) :
      Move env t (.watchErr i) t (.release i none) []
  | watchOn {i} : Move env t (.watchErr i) t (.live i) []
  | release {i err} :
      Move env t (.release i err) (t.releaseHolder i) (.claimDrop i err) [.release env.p i]
  | dropPark {i err} (hs : (t.slots i).state = .busy) :
      Move env t (.claimDrop i err) t (.dropParked i (t.slots i).ready err) []
  | dropStop {i err} (hs : (t.slots i).state ≠ .busy)
      (hlast : ¬ ((t.slots i).holders = 0 ∧ (t.slots i).state = .awake)) :
      Move env t (.claimDrop i err) t .finished (leave env.p err)
  | dropClaim {i err} (hh : (t.slots i).holders = 0) (hs : (t.slots i).state = .awake) :
      Move env t (.claimDrop i err) (t.enterBusy i) (.sleepCall i err) []
  | dropUnpark {i ready err} (hready : t.chans ready ≠ 0) :
      Move env t (.dropParked i ready err) t (.claimDrop i err) []
  | sleepStart {i err} :
      Move env t (.sleepCall i err) t (.sleepRun i err) [.start .sleep i (t.slots i).key]
  | slept {i err} :
      Move env t (.sleepRun i err) t (.slept i err) [.ret .sleep i (t.slots i).key true]
  | sleepPanic {i err} (hset : (t.slots i).hooks.sleep = true) :
      Move env t (.sleepRun i err) t (.panicked i none err)
        [.ret .sleep i (t.slots i).key false]
  | closeMapped {i err} (henf : (t.slots i).hooks.enforceCloseBeforeOpen = true)
      (hg : t.grace = 0) :
      Move env t (.slept i err) t (.closeCall i (.unmap i err)) []
  | parkUnmapped {i err}
      (hz : ¬ ((t.slots i).hooks.enforceCloseBeforeOpen = true ∧ t.grace = 0))
      (hm : t.items (t.slots i).key ≠ some i) :
      Move env t (.slept i err) (t.settleAsleep i) (.claimExpire i err) []
  | parkZero {i err} (henf : (t.slots i).hooks.enforceCloseBeforeOpen = false)
      (hg : t.grace = 0) (hm : t.items (t.slots i).key = some i) :
      Move env t (.slept i err) ((t.settleAsleep i).forget (t.slots i).key)
        (.claimExpire i err) []
  | parkGrace {i err} (hg : t.grace ≠ 0) (hm : t.items (t.slots i).key = some i) :
      Move env t (.slept i err) ((t.settleAsleep i).armGrace i env.now) .finished
        (.asleep i t.nextTimer (env.now + t.grace) :: leave env.p err)
  | swap {i createErr err} (henf : (t.slots i).hooks.enforceCloseBeforeOpen = true) :
      Move env t (.panicked i createErr err) (t.installCloser i createErr)
        (.closeReady i t.nextSlot (t.slots i).ready err) []
  | abort {i createErr err} (henf : (t.slots i).hooks.enforceCloseBeforeOpen = false) :
      Move env t (.panicked i createErr err) (t.endBusySlot i createErr)
        (.closeCall i (.finish err)) []
  | closeReady {i closer ready err} :
      Move env t (.closeReady i closer ready err) (t.closeChan ready)
        (.closeCall i (.unmap closer err)) []
  | expireSkip {i err} (hs : ¬ ((t.slots i).state = .asleep ∧ (t.slots i).holders = 0)) :
      Move env t (.claimExpire i err) t .finished (leave env.p err)
  | expireEnforce {i err} (hs : (t.slots i).state = .asleep) (hh : (t.slots i).holders = 0)
      (henf : (t.slots i).hooks.enforceCloseBeforeOpen = true) :
      Move env t (.claimExpire i err) (t.enterBusy i) (.closeCall i (.unmap i err))
        [.expired i env.caller.timer env.now]
  | expireDispose {i err} (hs : (t.slots i).state = .asleep) (hh : (t.slots i).holders = 0)
      (henf : (t.slots i).hooks.enforceCloseBeforeOpen = false) :
      Move env t (.claimExpire i err) ((t.endSlot i).unmap i) (.closeCall i (.finish err))
        [.expired i env.caller.timer env.now]
  | closeStart {i after} :
      Move env t (.closeCall i after) t (.closeRun i after) [.start .close i (t.slots i).key]
  | closed {i after ok} :
      Move env t (.closeRun i after) t after.next
        (.ret .close i (t.slots i).key ok :: after.left env.p)
  | unmapClosed {i err} :
      Move env t (.unmapClosed i err) (t.unmapLocked i) (.closeFinal (t.slots i).ready err) []
  | closeFinal {ready err} :
      Move env t (.closeFinal ready err) (t.closeChan ready) .finished (leave env.p err)
  | takeAll {slots} (hperm : slots.isPerm t.mapped = true) :
      Move env t .takeAll t.takeAll (.resetNext slots) []
  | resetDone : Move env t (.resetNext []) t .finished []
  | resetAwake {i rest} (hs : (t.slots i).state = .awake) :
      Move env t (.resetNext (i :: rest)) (t.endSlot i) (.resetSleepCall i rest) []
  | resetAsleep {i rest} (hs : (t.slots i).state = .asleep) :
      Move env t (.resetNext (i :: rest)) (t.endSlot i) (.closeCall i (.reset rest)) []
  | resetSkip {i rest} (hs : (t.slots i).state = .busy ∨ (t.slots i).state = .gone) :
      Move env t (.resetNext (i :: rest)) t (.resetNext rest) []
  | resetSleepStart {i rest} :
      Move env t (.resetSleepCall i rest) t (.resetSleepRun i rest)
        [.start .sleep i (t.slots i).key]
  | resetSlept {i rest ok} :
      Move env t (.resetSleepRun i rest) t (.closeCall i (.reset rest))
        [.ret .sleep i (t.slots i).key ok]

theorem Move.of_advance {env : Env} {t t' : Table V} {inp : Input V} {pc pc' : Pc V}
    {evs : List Event} (h : advance env t inp pc = some (t', pc', evs)) :
    Move env t pc t' pc' evs := by
  cases pc with
  | lookup =>
    simp only [advance] at h
    split at h
    next key ctx polls hc =>
      unfold Table.lookupOpen at h
      cases hkey : t.items key with
      | none => rw [hkey] at h; cases h; exact .create hc hkey
      | some i =>
        rw [hkey] at h
        dsimp only at h
        cases hs : (t.slots i).state with
        | awake => rw [hs] at h; cases h; exact .bind hc hkey hs
        | asleep => rw [hs] at h; cases h; exact .wake hc hkey hs
        | busy => rw [hs] at h; cases h; exact .park hc hkey hs
        | gone => rw [hs] at h; cases h; exact .retry hc hkey hs
    · cases h
  | parked i ready =>
    simp only [advance] at h
    split at h
    · cases h
    next hready => cases h; exact .unpark hready
  | createErrOf i =>
    simp only [advance] at h
    split at h
    next e he => cases h; exact .replay he
    next he => cases h; exact .again he
  | createCall i => cases h; exact .createStart
  | createRun i =>
    simp only [advance] at h
    split at h <;> cases h
    · exact .created
    · exact .createFail
    · exact .createFail
  | publishPut i v hooks => cases h; exact .put
  | createFailed i err => cases h; exact .putFailed
  | wakeCall i => cases h; exact .wakeStart
  | wakeRun i =>
    simp only [advance] at h
    split at h
    · cases h; exact .woken
    · split at h
      next hset => cases h; exact .wakePanic hset
      · cases h
    · cases h
  | publishWake i => cases h; exact .publishWake
  | finishBind i =>
    simp only [advance] at h
    split at h
    next hc =>
      split at h
      next he => cases h; exact .refuse hc he
      next he => cases h; exact .keep hc he
    · cases h
  | dropWhenDone i =>
    simp only [advance] at h
    split at h
    next hc =>
      split at h
      next hfin =>
        cases h
        rw [hfin.1] at hc
        exact .openedEnded hc hfin.2
      · cases h; exact .opened hc
    · cases h
  | live i =>
    simp only [advance] at h
    split at h
    next polls hc =>
      cases polls with
      | true =>
        rw [if_pos rfl] at h
        split at h
        · cases h; exact .poll hc
        next hfin => cases h; exact .pollEnded hc (eq_false_of_ne_true hfin)
      | false =>
        rw [if_neg Bool.false_ne_true] at h
        split at h
        next he => cases h; exact .afterFunc hc he
        · cases h
    · cases h
  | watchErr i =>
    simp only [advance] at h
    split at h
    next hc =>
      split at h
      next he => cases h; exact .watchDone hc he
      · cases h; exact .watchOn
    · cases h
  | release i err => cases h; exact .release
  | claimDrop i err =>
    simp only [advance, Table.claimDrop] at h
    by_cases hs : (t.slots i).state = .busy
    · rw [if_pos hs] at h; cases h; exact .dropPark hs
    · rw [if_neg hs] at h
      by_cases hlast : (t.slots i).holders = 0 ∧ (t.slots i).state = .awake
      · rw [if_pos hlast] at h; cases h; exact .dropClaim hlast.1 hlast.2
      · rw [if_neg hlast] at h; cases h; exact .dropStop hs hlast
  | dropParked i ready err =>
    simp only [advance] at h
    split at h
    · cases h
    next hready => cases h; exact .dropUnpark hready
  | sleepCall i err => cases h; exact .sleepStart
  | sleepRun i err =>
    simp only [advance] at h
    split at h
    · cases h; exact .slept
    · split at h
      next hset => cases h; exact .sleepPanic hset
      · cases h
    · cases h
  | slept i err =>
    simp only [advance] at h
    split at h
    next hz => cases h; exact .closeMapped hz.1 hz.2
    next hz =>
      unfold Table.parkAsleep at h
      by_cases hm : t.items (t.slots i).key = some i
      · rw [if_neg (not_not_intro hm)] at h
        by_cases hg : t.grace = 0
        · rw [if_pos hg] at h
          cases h
          exact .parkZero (eq_false_of_ne_true fun henf => hz ⟨henf, hg⟩) hg hm
        · rw [if_neg hg] at h; cases h; exact .parkGrace hg hm
      · rw [if_pos hm] at h; cases h; exact .parkUnmapped hz hm
  | panicked i createErr err =>
    simp only [advance] at h
    split at h
    next henf => cases h; exact .swap henf
    next henf => cases h; exact .abort (eq_false_of_ne_true henf)
  | closeReady i closer ready err => cases h; exact .closeReady
  | claimExpire i err =>
    simp only [advance, Table.claimExpire] at h
    by_cases hs : (t.slots i).state = .asleep ∧ (t.slots i).holders = 0
    · rw [if_pos hs] at h
      by_cases henf : (t.slots i).hooks.enforceCloseBeforeOpen = true
      · rw [if_pos henf] at h; cases h; exact .expireEnforce hs.1 hs.2 henf
      · rw [if_neg henf] at h
        cases h
        exact .expireDispose hs.1 hs.2 (eq_false_of_ne_true henf)
    · rw [if_neg hs] at h; cases h; exact .expireSkip hs
  | closeCall i after => cases h; exact .closeStart
  | closeRun i after =>
    simp only [advance] at h
    have hclosed : ∀ ok, Move env t (.closeRun i after) t after.next
        (.ret .close i (t.slots i).key ok :: after.left env.p) := fun ok => .closed
    split at h
    · cases after <;> cases h <;> exact hclosed true
    · split at h
      · cases after <;> cases h <;> exact hclosed false
      · cases h
    · cases h
  | unmapClosed i err => cases h; exact .unmapClosed
  | closeFinal ready err => cases h; exact .closeFinal
  | takeAll =>
    simp only [advance] at h
    split at h
    · split at h
      next hperm => cases h; exact .takeAll hperm
      · cases h
    · cases h
  | resetNext rest =>
    cases rest with
    | nil => cases h; exact .resetDone
    | cons i rest =>
      simp only [advance, Table.endResetSlot] at h
      cases hs : (t.slots i).state with
      | awake => rw [hs] at h; cases h; exact .resetAwake hs
      | asleep => rw [hs] at h; cases h; exact .resetAsleep hs
      | busy => rw [hs] at h; cases h; exact .resetSkip (Or.inl hs)
      | gone => rw [hs] at h; cases h; exact .resetSkip (Or.inr hs)
  | resetSleepCall i rest => cases h; exact .resetSleepStart
  | resetSleepRun i rest =>
    simp only [advance] at h
    split at h
    · cases h; exact .resetSlept
    · split at h
      · cases h; exact .resetSlept
      · cases h
    · cases h
  | finished => cases h

/-! ## What a step does to a slot -/

inductive SlotMove (t : Table V) (j : ℕ) : Pc V → Slot V → Pc V → Prop
  | same {pc pc'} : SlotMove t j pc (t.slots j) pc'
  | registered {key} (hj : j = t.nextSlot) :
      SlotMove t j .lookup (Table.registered key t.nextChan) (.createCall j)
  | held (hs : (t.slots j).state = .awake) :
      SlotMove t j .lookup { t.slots j with holders := (t.slots j).holders + 1 } (.finishBind j)
  | reclaimed (hs : (t.slots j).state = .asleep) :
      SlotMove t j .lookup { t.slots j with
        state := .busy
        ready := t.nextChan
        graceTimer := none
        holders := (t.slots j).holders + 1 } (.wakeCall j)
  | put {value hooks} :
      SlotMove t j (.publishPut j value hooks) { t.slots j with
        value := some value
        hooks := hooks
        state := .awake
        holders := (t.slots j).holders + 1 } (.finishBind j)
  | failed {err} :
      SlotMove t j (.createFailed j err)
        { t.slots j with createErr := some err, state := .gone, finished := false } .finished
  | woken : SlotMove t j (.publishWake j) { t.slots j with state := .awake } (.finishBind j)
  | released {err} :
      SlotMove t j (.release j err) { t.slots j with holders := (t.slots j).holders - 1 }
        (.claimDrop j err)
  | claimed {err} (hs : (t.slots j).state = .awake) (hh : (t.slots j).holders = 0) :
      SlotMove t j (.claimDrop j err) { t.slots j with state := .busy, ready := t.nextChan }
        (.sleepCall j err)
  | settled {err} (hg : t.grace = 0 ∨ t.items (t.slots j).key ≠ some j) :
      SlotMove t j (.slept j err) { t.slots j with state := .asleep } (.claimExpire j err)
  | armed {err} (hg : t.grace ≠ 0) :
      SlotMove t j (.slept j err)
        { t.slots j with state := .asleep, graceTimer := some t.nextTimer } .finished
  | broke {createErr err pc'} :
      SlotMove t j (.panicked j createErr err)
        { t.slots j with createErr := createErr, state := .gone, finished := false } pc'
  | closer {i key createErr err} (hj : j = t.nextSlot) :
      SlotMove t j (.panicked i createErr err) (Table.closer key t.nextChan)
        (.closeReady i j (t.slots i).ready err)
  | enforced {err} (hs : (t.slots j).state = .asleep) :
      SlotMove t j (.claimExpire j err) { t.slots j with state := .busy, ready := t.nextChan }
        (.closeCall j (.unmap j err))
  | disposed {err} (hs : (t.slots j).state = .asleep) :
      SlotMove t j (.claimExpire j err) { t.slots j with state := .gone, finished := false }
        (.closeCall j (.finish err))
  | unmapped {err} :
      SlotMove t j (.unmapClosed j err) { t.slots j with state := .gone, finished := false }
        (.closeFinal (t.slots j).ready err)
  | cleared {rest} :
      SlotMove t j .takeAll { t.slots j with graceTimer := none } (.resetNext rest)
  | reset {rest pc'} (hs : (t.slots j).state = .awake ∨ (t.slots j).state = .asleep) :
      SlotMove t j (.resetNext (j :: rest)) { t.slots j with state := .gone, finished := false }
        pc'

section Slots

variable {env : Env} {t t' : Table V} {pc pc' : Pc V} {evs : List Event}

theorem SlotMove.of_touches {i : ℕ} {s : Slot V} (ht : t.Touches i s t')
    (hi : SlotMove t i pc s pc') {j : ℕ} : SlotMove t j pc (t'.slots j) pc' := by
  rw [ht.slots]
  by_cases hj : j = i
  · rw [hj, update_self]
    exact hi
  · rw [update_of_ne hj]
    exact .same

theorem Move.slot (hm : Move env t pc t' pc' evs) (j : ℕ) :
    SlotMove t j pc (t'.slots j) pc' := by
  cases hm with
  | create =>
    by_cases hj : j = t.nextSlot
    · subst hj
      rw [show (t.register _).slots t.nextSlot = _ from update_self ..]
      exact .registered rfl
    · rw [show (t.register _).slots j = _ from update_of_ne hj ..]
      exact .same
  | bind _ _ hs => exact .of_touches (t.touches_hold _) (.held hs)
  | wake _ _ hs => exact .of_touches (t.touches_reclaim _) (.reclaimed hs)
  | put => exact .of_touches (t.touches_publishPut ..) .put
  | putFailed => exact .of_touches (t.touches_endBusySlot ..) .failed
  | publishWake => exact .of_touches (t.touches_publishWake _) .woken
  | release => exact .of_touches (t.touches_releaseHolder _) .released
  | dropClaim hh hs => exact .of_touches (t.touches_enterBusy _) (.claimed hs hh)
  | parkUnmapped _ hm => exact .of_touches (t.touches_settleAsleep _) (.settled (Or.inr hm))
  | parkZero _ hg => exact .of_touches (t.touches_settleAsleep _) (.settled (Or.inl hg))
  | parkGrace hg => exact .of_touches (t.touches_armGrace ..) (.armed hg)
  | @swap i createErr =>
    by_cases hj : j = t.nextSlot
    · subst hj
      rw [show (t.installCloser _ _).slots t.nextSlot = _ from update_self ..]
      exact .closer rfl
    · rw [show (t.installCloser _ _).slots j = (t.endWith i createErr).slots j from
        update_of_ne hj ..]
      exact .of_touches (t.touches_endWith ..) .broke
  | abort => exact .of_touches (t.touches_endBusySlot ..) .broke
  | expireEnforce hs => exact .of_touches (t.touches_enterBusy _) (.enforced hs)
  | expireDispose hs => exact .of_touches ((t.touches_endSlot _).unmap _) (.disposed hs)
  | unmapClosed => exact .of_touches (t.touches_unmapLocked _) .unmapped
  | takeAll =>
    unfold Table.takeAll
    dsimp only
    split
    · exact .cleared
    · exact .same
  | resetAwake hs => exact .of_touches (t.touches_endSlot _) (.reset (Or.inl hs))
  | resetAsleep hs => exact .of_touches (t.touches_endSlot _) (.reset (Or.inr hs))
  | _ => exact .same

theorem Move.nextSlot_le (hm : Move env t pc t' pc' evs) : t.nextSlot ≤ t'.nextSlot := by
  cases hm with
  | create | swap => exact Nat.le_succ _
  | wake => exact (t.touches_reclaim _).nextSlot.ge
  | putFailed | abort => exact (t.touches_endBusySlot ..).nextSlot.ge
  | expireDispose => exact ((t.touches_endSlot _).unmap _).nextSlot.ge
  | unmapClosed => exact (t.touches_unmapLocked _).nextSlot.ge
  | _ => exact le_refl _

theorem Move.key_eq (hm : Move env t pc t' pc' evs) {j : ℕ} (hj : j < t.nextSlot) :
    (t'.slots j).key = (t.slots j).key := by
  have hslot := hm.slot j
  generalize t'.slots j = s at hslot
  cases hslot with
  | registered he | closer he => exact absurd he hj.ne
  | _ => rfl

end Slots

/-! ## Steps of the world -/

namespace World

/-- The world after a process has moved. -/
def moved (w : World V) (p : ℕ) (caller : Caller) (t : Table V) (pc : Pc V) (evs : List Event) :
    World V :=
  ({ w with table := t, log := w.log ++ evs } : World V).setProc p caller pc

theorem procs_moved_self {w : World V} {p : ℕ} {caller : Caller} {t : Table V} {pc : Pc V}
    {evs : List Event} : (w.moved p caller t pc evs).procs p = some ⟨caller, pc⟩ :=
  update_self ..

theorem procs_moved_of_ne {w : World V} {p q : ℕ} {caller : Caller} {t : Table V} {pc : Pc V}
    {evs : List Event} (hq : q ≠ p) : (w.moved p caller t pc evs).procs q = w.procs q :=
  update_of_ne hq ..

theorem procs_moved_back {w : World V} {p q : ℕ} {caller : Caller} {t : Table V} {pc : Pc V}
    {evs : List Event} {x : Proc V} (h : (w.moved p caller t pc evs).procs q = some x) :
    (q = p ∧ x = ⟨caller, pc⟩) ∨ (q ≠ p ∧ w.procs q = some x) :=
  Lib.update_eq_some h

theorem procs_init {grace : ℤ} {p : ℕ} {x : Proc V} : (init grace).procs p ≠ some x := by
  intro h
  change none = some x at h
  cases h

theorem procs_update_back {procs : ℕ → Option (Proc V)} {n q : ℕ} {x y : Proc V}
    (h : update procs n (some y) q = some x) : x = y ∨ procs q = some x := by
  by_cases hq : q = n
  · rw [hq, update_self] at h
    exact .inl (Option.some.inj h).symm
  · exact .inr ((update_of_ne hq ..).symm.trans h)

/-- The timer's callback runs. -/
def fired (w : World V) (timer : ℕ) : World V :=
  { w with table := { w.table with
      timers := update w.table.timers timer
        { w.table.timers timer with status := .started } } }

def cancelled (w : World V) (ctx : ℕ) (err : String) : World V :=
  { w with
    ctxErr := update w.ctxErr ctx (some err)
    log := w.log ++ [Event.ctxDone ctx] }

inductive Steps (w : World V) : Action V → World V → Prop
  | openKey {key ctx polls} :
      Steps w (.openKey key ctx polls) (w.spawn (.opener key ctx polls) .lookup)
  | cancel {ctx err} (hc : w.ctxErr ctx = none) : Steps w (.cancel ctx err) (w.cancelled ctx err)
  | reset : Steps w .reset (w.spawn .resetter .takeAll)
  | tick {elapsed} : Steps w (.tick elapsed) { w with now := w.now + elapsed }
  | fire {timer} (harmed : (w.table.timers timer).status = .armed)
      (hdue : (w.table.timers timer).due ≤ w.now) :
      Steps w (.fire timer)
        ((w.fired timer).spawn (.grace timer) (.claimExpire (w.table.timers timer).slot none))
  | run {p inp caller pc t pc' evs} (hp : w.procs p = some ⟨caller, pc⟩)
      (hm : Move (w.env p caller) w.table pc t pc' evs) :
      Steps w (.run p inp) (w.moved p caller t pc' evs)

theorem step_of_advance {w : World V} {p : ℕ} {caller : Caller} {pc pc' : Pc V} {inp : Input V}
    {t : Table V} {evs : List Event} (hp : w.procs p = some ⟨caller, pc⟩)
    (hadv : advance (w.env p caller) w.table inp pc = some (t, pc', evs)) :
    w.step (.run p inp) = some (w.moved p caller t pc' evs) := by
  simp only [step, runProc, hp, hadv]
  rfl

theorem step_cases {w w' : World V} {a : Action V} (h : w.step a = some w') : w.Steps a w' := by
  cases a with
  | openKey key ctx polls => cases h; exact .openKey
  | cancel ctx err =>
    simp only [step, runCancel] at h
    split at h
    · cases h
    next hc => cases h; exact .cancel hc
  | reset => cases h; exact .reset
  | tick elapsed => cases h; exact .tick
  | fire timer =>
    simp only [step, runFire] at h
    split at h
    next hf => cases h; exact .fire hf.1 hf.2
    · cases h
  | run p inp =>
    simp only [step, runProc] at h
    split at h
    · cases h
    next caller pc hp =>
      split at h
      · cases h
      next t pc' evs hadv => cases h; exact .run hp (.of_advance hadv)

end World

end MiddlewareUtils.Reclaim
