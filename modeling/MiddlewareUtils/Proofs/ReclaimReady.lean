import MiddlewareUtils.Proofs.ReclaimLifecycle

/-!
# Who closes which channel

A slot is busy from the moment a process takes it until that process closes
the slot's `ready`. Opens and drops that meet it meanwhile park on `ready`,
so a channel that is never closed parks them for ever and one that is closed
twice ends the program.

`Pc.owes` is the table of that duty: for every program counter, the channels
it has yet to close. They are the `ready` of the slot the process keeps busy,
and a `ready` it has taken out of a slot that is no longer busy and closes
in its next step. Channels under this duty are `Lib.Ownership` once more:
an open channel has one process that owes it, a closed one was closed once
and has none. A step can do one of three things to them: nothing, make a
channel and owe it, or close a channel it owed. Reset has no part in this:
it closes no `ready` and leaves the slots it finds busy to their owners.
-/

namespace MiddlewareUtils.Reclaim

open Lib Function

variable {V : Type}

def Pc.keepsBusy : Pc V → Option ℕ
  | createCall i | createRun i | publishPut i _ _ | createFailed i _ | wakeCall i | wakeRun i
  | publishWake i | sleepCall i _ | sleepRun i _ | slept i _ | panicked i _ _
  | unmapClosed i _ => some i
  | closeReady _ closer _ _ => some closer
  | closeCall _ after | closeRun _ after => after.keeper
  | _ => none

def Pc.toClose : Pc V → Option ℕ
  | closeReady _ _ ready _ | closeFinal ready _ => some ready
  | _ => none

def Pc.owes (t : Table V) (pc : Pc V) (c : ℕ) : Prop :=
  (∃ i, pc.keepsBusy = some i ∧ (t.slots i).ready = c) ∨ pc.toClose = some c

def World.Owes (w : World V) (p c : ℕ) : Prop := ∃ q, w.procs p = some q ∧ q.pc.owes w.table c

def Pc.parkedOn : Pc V → Option ℕ
  | parked _ ready | dropParked _ ready _ => some ready
  | _ => none

/-! ## Keeping a slot busy is claiming it -/

theorem Pc.claim_of_keepsBusy {pc : Pc V} {i : ℕ} (h : pc.keepsBusy = some i) :
    ∃ phs, pc.claim i = some ⟨.busy, phs⟩ := by
  -- Close keeps the key by the slot itself or by a closer.
  have hkeep : ∀ {j : ℕ} (after : AfterClose) {phs : List Phase}, after.keeper = some i →
      ∃ phs', (if i = j then some (Claim.mk (after.closingState j) phs)
        else if after.keeper = some i then some ⟨.busy, [.keeper]⟩ else none) =
          some ⟨.busy, phs'⟩ := by
    intro j after phs hk
    by_cases hij : i = j
    · subst hij
      rw [if_pos rfl, show after.closingState i = .busy from if_pos hk]
      exact ⟨phs, rfl⟩
    · rw [if_neg hij, if_pos hk]
      exact ⟨_, rfl⟩
  cases pc with
  | createCall | createRun | publishPut | createFailed | wakeCall | wakeRun | publishWake
  | sleepCall | sleepRun | slept | panicked | unmapClosed =>
    obtain rfl := Option.some.inj h
    exact ⟨_, if_pos rfl⟩
  | closeReady j closer ready err => exact hkeep (.unmap closer err) h
  | closeCall _ after | closeRun _ after => exact hkeep after h
  | _ => cases h

theorem Pc.keepsBusy_of_claim {pc : Pc V} {i : ℕ} {c : Claim} (h : pc.claim i = some c)
    (hc : c.state = .busy) : pc.keepsBusy = some i := by
  have hone : ∀ {j : ℕ} {d : Claim}, (if i = j then some d else none) = some c →
      j = i ∧ c = d := by
    intro j d hif
    split at hif
    next hij => exact ⟨hij.symm, (Option.some.inj hif).symm⟩
    · cases hif
  have hkeep : ∀ {j : ℕ} (after : AfterClose) {phs : List Phase},
      (if i = j then some (Claim.mk (after.closingState j) phs)
        else if after.keeper = some i then some ⟨.busy, [.keeper]⟩ else none) = some c →
      after.keeper = some i := by
    intro j after phs hif
    split at hif
    next hij =>
      rw [← Option.some.inj hif] at hc
      by_contra hk
      rw [← hij, show after.closingState i = .gone from if_neg hk] at hc
      cases hc
    · split at hif
      next hk => exact hk
      · cases hif
  cases pc with
  | createCall | createRun | publishPut | createFailed | wakeCall | wakeRun | publishWake
  | sleepCall | sleepRun | slept | panicked | unmapClosed =>
    rw [← (hone h).1]
    rfl
  | closeReady j closer ready err => exact hkeep (.unmap closer err) h
  | closeCall _ after | closeRun _ after => exact hkeep after h
  | resetSleepCall | resetSleepRun =>
    rw [(hone h).2] at hc
    cases hc
  | _ => cases h

namespace OwnersInv

variable {w : World V} {i p : ℕ}

theorem busy_of_keeps (h : OwnersInv w) {q : Proc V} (hp : w.procs p = some q)
    (hq : q.pc.keepsBusy = some i) :
    (w.table.slots i).state = .busy ∧ i < w.table.nextSlot := by
  obtain ⟨phs, hc⟩ := Pc.claim_of_keepsBusy hq
  obtain ⟨hst, _, _, hin⟩ := h.meets hp hc
  exact ⟨hst, hin.made⟩

theorem keeper (h : OwnersInv w) (hs : (w.table.slots i).state = .busy) :
    ∃ p q, w.procs p = some q ∧ q.pc.keepsBusy = some i := by
  have hs' : (w.view i).state = .busy := hs
  by_cases hown : ∃ p, Owns (w.procs p) i
  · obtain ⟨p, hp⟩ := hown
    cases hproc : w.procs p with
    | none => rw [hproc] at hp; exact hp.elim
    | some q =>
      rw [hproc] at hp
      obtain ⟨c, hc⟩ := Option.ne_none_iff_exists'.mp hp
      refine ⟨p, q, hproc, Pc.keepsBusy_of_claim hc ?_⟩
      rw [← (h.meets hproc hc).1]
      exact hs
  · cases h.owned.rests i fun p hp => hown ⟨p, hp⟩ with
    | resting hr hst _ =>
      rw [hs'] at hst
      subst hst
      cases hr
    | ended _ hst _ | unmade hst _ _ =>
      rw [hs'] at hst
      cases hst

theorem keeper_unique (h : OwnersInv w) {p' : ℕ} {q q' : Proc V} (hp : w.procs p = some q)
    (hp' : w.procs p' = some q') (hq : q.pc.keepsBusy = some i)
    (hq' : q'.pc.keepsBusy = some i) : p = p' := by
  obtain ⟨_, hc⟩ := Pc.claim_of_keepsBusy hq
  obtain ⟨_, hc'⟩ := Pc.claim_of_keepsBusy hq'
  exact h.claim_unique hp hp' hc hc'

end OwnersInv

/-! ## What a step does to the channels -/

inductive ChanStep (t : Table V) (pc : Pc V) (t' : Table V) (pc' : Pc V) : Prop
  | keep (hchans : t'.chans = t.chans) (hnext : t'.nextChan = t.nextChan)
      (howes : ∀ c, pc'.owes t' c ↔ pc.owes t c)
  | makes (hchans : t'.chans = t.chans) (hnext : t'.nextChan = t.nextChan + 1)
      (howes : ∀ c, pc'.owes t' c ↔ pc.owes t c ∨ c = t.nextChan)
  | closes {r} (hchans : t'.chans = update t.chans r (t.chans r + 1))
      (hnext : t'.nextChan = t.nextChan) (howes : ∀ c, pc.owes t c ↔ pc'.owes t' c ∨ c = r)
      (hdone : ¬ pc'.owes t' r)

theorem ChanStep.closed_stays {t t' : Table V} {pc pc' : Pc V} {c : ℕ}
    (h : ChanStep t pc t' pc') (hc : t.chans c ≠ 0) : t'.chans c ≠ 0 := by
  cases h with
  | keep hchans | makes hchans => rwa [hchans]
  | @closes r hchans =>
    rw [hchans]
    by_cases hr : c = r
    · rw [hr, update_self]
      exact Nat.succ_ne_zero _
    · rwa [update_of_ne hr]

section Channels

variable {env : Env} {t t' : Table V} {pc pc' : Pc V} {evs : List Event} {i c : ℕ}

theorem Table.chans_unmap (t : Table V) (i : ℕ) :
    (t.unmap i).chans = t.chans ∧ (t.unmap i).nextChan = t.nextChan := by
  unfold Table.unmap
  split <;> exact ⟨rfl, rfl⟩

theorem Table.chans_stopTimer (t : Table V) (o : Option ℕ) :
    (t.stopTimer o).chans = t.chans ∧ (t.stopTimer o).nextChan = t.nextChan := by
  unfold Table.stopTimer
  split
  · exact ⟨rfl, rfl⟩
  · split <;> exact ⟨rfl, rfl⟩

theorem Pc.owes_none (hb : pc.keepsBusy = none) (hc : pc.toClose = none) : ¬ pc.owes t c := by
  rintro (⟨i, hi, _⟩ | hr)
  · rw [hb] at hi
    cases hi
  · rw [hc] at hr
    cases hr

theorem Pc.owes_one (hb : pc.keepsBusy = some i) (hc : pc.toClose = none) :
    pc.owes t c ↔ c = (t.slots i).ready := by
  constructor
  · rintro (⟨j, hj, rfl⟩ | hr)
    · rw [hb] at hj
      rw [Option.some.inj hj]
    · rw [hc] at hr
      cases hr
  · rintro rfl
    exact .inl ⟨i, hb, rfl⟩

theorem ChanStep.idle (hchans : t'.chans = t.chans) (hnext : t'.nextChan = t.nextChan)
    (hb : pc.keepsBusy = none) (hc : pc.toClose = none) (hb' : pc'.keepsBusy = none)
    (hc' : pc'.toClose = none) : ChanStep t pc t' pc' :=
  .keep hchans hnext fun _ =>
    ⟨fun h => absurd h (Pc.owes_none hb' hc'), fun h => absurd h (Pc.owes_none hb hc)⟩

theorem ChanStep.goesOn (hb : pc'.keepsBusy = pc.keepsBusy) (hc : pc'.toClose = pc.toClose) :
    ChanStep t pc t pc' :=
  .keep rfl rfl fun c => by unfold Pc.owes; rw [hb, hc]

theorem ChanStep.takes (hchans : t'.chans = t.chans) (hnext : t'.nextChan = t.nextChan + 1)
    (hb : pc.keepsBusy = none) (hc : pc.toClose = none) (hb' : pc'.keepsBusy = some i)
    (hc' : pc'.toClose = none) (hready : (t'.slots i).ready = t.nextChan) :
    ChanStep t pc t' pc' := by
  refine .makes hchans hnext fun c => ?_
  rw [Pc.owes_one hb' hc', hready]
  exact ⟨Or.inr, fun h => h.resolve_left (Pc.owes_none hb hc)⟩

theorem ChanStep.gives
    (hchans : t'.chans = update t.chans (t.slots i).ready (t.chans (t.slots i).ready + 1))
    (hnext : t'.nextChan = t.nextChan) (hb : pc.keepsBusy = some i) (hc : pc.toClose = none)
    (hb' : pc'.keepsBusy = none) (hc' : pc'.toClose = none) : ChanStep t pc t' pc' := by
  refine .closes hchans hnext (fun c => ?_) (Pc.owes_none hb' hc')
  rw [Pc.owes_one hb hc]
  exact ⟨Or.inr, fun h => h.resolve_left (Pc.owes_none hb' hc')⟩

theorem Table.chans_endBusySlot (t : Table V) (i : ℕ) (createErr : Option OpenError) :
    (t.endBusySlot i createErr).chans =
      update t.chans (t.slots i).ready (t.chans (t.slots i).ready + 1) ∧
    (t.endBusySlot i createErr).nextChan = t.nextChan := by
  obtain ⟨hchans, hnext⟩ := (t.endWith i createErr).chans_unmap i
  refine ⟨?_, hnext⟩
  show update ((t.endWith i createErr).unmap i).chans _
    (((t.endWith i createErr).unmap i).chans _ + 1) = _
  rw [hchans]
  rfl

theorem Move.newSlot (hm : Move env t pc t' pc' evs) {j : ℕ} (hj : j < t'.nextSlot) :
    j < t.nextSlot ∨ (t'.slots j).ready = t.nextChan ∧ pc'.keepsBusy = some j := by
  have hlast : j < t.nextSlot + 1 → j < t.nextSlot ∨ j = t.nextSlot :=
    fun hj => Nat.lt_succ_iff_lt_or_eq.mp hj
  cases hm with
  | create =>
    refine (hlast hj).imp id fun he => ?_
    rw [he, show (t.register _).slots t.nextSlot = _ from update_self ..]
    exact ⟨rfl, rfl⟩
  | swap =>
    refine (hlast hj).imp id fun he => ?_
    rw [he, show (t.installCloser _ _).slots t.nextSlot = _ from update_self ..]
    exact ⟨rfl, rfl⟩
  | wake => exact .inl ((t.touches_reclaim _).nextSlot ▸ hj)
  | putFailed | abort => exact .inl ((t.touches_endBusySlot ..).nextSlot ▸ hj)
  | expireDispose => exact .inl (((t.touches_endSlot _).unmap _).nextSlot ▸ hj)
  | unmapClosed => exact .inl ((t.touches_unmapLocked _).nextSlot ▸ hj)
  | _ => exact .inl hj

theorem Move.chan (hm : Move env t pc t' pc' evs)
    (hmade : ∀ i, pc.keepsBusy = some i → i < t.nextSlot)
    (hapart : ∀ i c, pc.keepsBusy = some i → pc.toClose = some c → (t.slots i).ready ≠ c) :
    ChanStep t pc t' pc' := by
  cases hm with
  | create =>
    exact .takes rfl rfl rfl rfl rfl rfl
      (by rw [show (t.register _).slots t.nextSlot = _ from update_self ..]; rfl)
  | @wake _ _ _ i =>
    obtain ⟨hchans, hnext⟩ := t.chans_stopTimer (t.slots i).graceTimer
    refine .takes (i := i) hchans (congrArg (· + 1) rfl) rfl rfl rfl rfl ?_
    rw [(t.touches_reclaim i).slots, update_self]
  | @dropClaim i err | @expireEnforce i err =>
    refine .takes (i := i) rfl rfl rfl rfl rfl rfl ?_
    rw [(t.touches_enterBusy i).slots, update_self]
  | put | publishWake | parkUnmapped | parkZero | parkGrace => exact .gives rfl rfl rfl rfl rfl rfl
  | putFailed | abort =>
    exact .gives (Table.chans_endBusySlot ..).1 (Table.chans_endBusySlot ..).2 rfl rfl rfl rfl
  | @swap i createErr err =>
    have hi := hmade i rfl
    refine .makes rfl rfl fun c => ?_
    have hnew : ((t.installCloser i createErr).slots t.nextSlot).ready = t.nextChan := by
      rw [show (t.installCloser i createErr).slots t.nextSlot = _ from update_self ..]
      rfl
    rw [Pc.owes_one (show (Pc.panicked (V := V) i createErr err).keepsBusy = some i from rfl) rfl]
    constructor
    · rintro (⟨j, hj, rfl⟩ | hr)
      · rw [← Option.some.inj hj]
        exact .inr hnew
      · exact .inl (Option.some.inj hr).symm
    · rintro (rfl | rfl)
      · exact .inr rfl
      · exact .inl ⟨_, rfl, hnew⟩
  | @closeReady i closer ready err =>
    have hone : ∀ {c}, (Pc.closeCall (V := V) i (.unmap closer err)).owes (t.closeChan ready) c ↔
        c = (t.slots closer).ready := Pc.owes_one rfl rfl
    refine .closes rfl rfl (fun c => ?_) ?_
    · rw [hone]
      constructor
      · rintro (⟨j, hj, rfl⟩ | hr)
        · rw [← Option.some.inj hj]
          exact .inl rfl
        · exact .inr (Option.some.inj hr).symm
      · rintro (rfl | rfl)
        · exact .inl ⟨_, rfl, rfl⟩
        · exact .inr rfl
    · rw [hone]
      exact fun hr => hapart closer ready rfl rfl hr.symm
  | @closeFinal ready err =>
    refine .closes rfl rfl (fun c => ?_) (Pc.owes_none rfl rfl)
    constructor
    · rintro (⟨j, hj, _⟩ | hr)
      · cases hj
      · exact .inr (Option.some.inj hr).symm
    · rintro (h | rfl)
      · exact absurd h (Pc.owes_none rfl rfl)
      · exact .inr rfl
  | @unmapClosed i err =>
    obtain ⟨hchans, hnext⟩ := t.chans_unmap i
    refine .keep hchans hnext fun c => ?_
    rw [Pc.owes_one (show (Pc.unmapClosed (V := V) i err).keepsBusy = some i from rfl) rfl]
    constructor
    · rintro (⟨j, hj, _⟩ | hr)
      · cases hj
      · exact (Option.some.inj hr).symm
    · rintro rfl
      exact .inr rfl
  | expireDispose =>
    obtain ⟨hchans, hnext⟩ := (t.endSlot _).chans_unmap _
    exact .idle hchans hnext rfl rfl rfl rfl
  | @closed i after ok => exact .goesOn (by cases after <;> rfl) (by cases after <;> rfl)
  | createStart | created | createFail | wakeStart | woken | wakePanic | sleepStart | slept
  | sleepPanic | closeMapped | closeStart => exact .goesOn rfl rfl
  | _ => exact .idle rfl rfl rfl rfl rfl rfl

end Channels

/-! ## The invariant -/

structure ChanView where
  count : ℕ
  made : Prop

def World.chan (w : World V) (c : ℕ) : ChanView := ⟨w.table.chans c, c < w.table.nextChan⟩

def World.owed (w : World V) (p : ℕ) : Set ℕ := { c | w.Owes p c }

structure ReadyInv (w : World V) : Prop where
  owners : OwnersInv w
  chans : Owned (fun (owed : Set ℕ) c => c ∈ owed) (fun _ _ v => v.made ∧ v.count = 0)
    (fun _ v => v.made ∧ v.count = 1 ∨ ¬ v.made ∧ v.count = 0) w.owed w.chan
  ready : ∀ i < w.table.nextSlot, (w.table.slots i).ready < w.table.nextChan
  distinct : ∀ i < w.table.nextSlot, ∀ j < w.table.nextSlot,
    (w.table.slots i).ready = (w.table.slots j).ready → i = j
  apart : ∀ p q i c, w.procs p = some q → q.pc.keepsBusy = some i → q.pc.toClose = some c →
    (w.table.slots i).ready ≠ c
  parked : ∀ p q c, w.procs p = some q → q.pc.parkedOn = some c → c < w.table.nextChan

theorem SlotMove.ready {t : Table V} {j : ℕ} {pc pc' : Pc V} {s : Slot V}
    (h : SlotMove t j pc s pc') :
    s.ready = (t.slots j).ready ∨ s.ready = t.nextChan ∧ pc'.keepsBusy = some j := by
  cases h with
  | registered | reclaimed | claimed | closer | enforced => exact .inr ⟨rfl, rfl⟩
  | _ => exact .inl rfl

namespace ReadyInv

variable {w : World V} {p : ℕ} {caller : Caller} {pc pc' : Pc V} {t : Table V}
  {evs : List Event} {i c : ℕ}

theorem owes_open (h : ReadyInv w) (hc : w.Owes p c) :
    c < w.table.nextChan ∧ w.table.chans c = 0 :=
  h.chans.held p c hc

theorem owes_unique (h : ReadyInv w) {q : ℕ} (hp : w.Owes p c) (hq : w.Owes q c) : p = q :=
  h.chans.unique p q c hp hq

theorem closed_or_owed (h : ReadyInv w) (hc : c < w.table.nextChan) :
    w.table.chans c = 1 ∧ (∀ p, ¬ w.Owes p c) ∨ w.table.chans c = 0 ∧ ∃! p, w.Owes p c := by
  by_cases hown : ∃ p, w.Owes p c
  · obtain ⟨p, hp⟩ := hown
    exact .inr ⟨(h.owes_open hp).2, p, hp, fun q hq => h.owes_unique hq hp⟩
  · have hnot : ∀ p, ¬ w.Owes p c := fun p hp => hown ⟨p, hp⟩
    rcases h.chans.rests c hnot with ⟨_, hone⟩ | ⟨hun, _⟩
    · exact .inl ⟨hone, hnot⟩
    · exact absurd hc hun

theorem ready_eq (hm : Move (w.env p caller) w.table pc t pc' evs)
    (ho : OwnersInv (w.moved p caller t pc' evs)) {q : ℕ} {x : Proc V} (hq : q ≠ p)
    (hx : w.procs q = some x) (hi : x.pc.keepsBusy = some i) :
    (t.slots i).ready = (w.table.slots i).ready := by
  refine (hm.slot i).ready.resolve_right fun ⟨_, hnew⟩ => hq ?_
  exact ho.keeper_unique ((World.procs_moved_of_ne hq).trans hx) World.procs_moved_self hi hnew

theorem owed_moved (hm : Move (w.env p caller) w.table pc t pc' evs)
    (ho : OwnersInv (w.moved p caller t pc' evs)) :
    (w.moved p caller t pc' evs).owed = update w.owed p { c | pc'.owes t c } := by
  funext q
  ext c
  by_cases hq : q = p
  · subst hq
    rw [update_self]
    refine ⟨fun ⟨x, hx, hc⟩ => ?_, fun hc => ⟨_, World.procs_moved_self, hc⟩⟩
    rw [World.procs_moved_self] at hx
    cases hx
    exact hc
  · rw [update_of_ne hq]
    constructor
    · rintro ⟨x, hx, hc⟩
      rw [World.procs_moved_of_ne hq] at hx
      refine ⟨x, hx, hc.imp (fun ⟨i, hi, hr⟩ => ⟨i, hi, ?_⟩) id⟩
      exact (ready_eq hm ho hq hx hi).symm.trans hr
    · rintro ⟨x, hx, hc⟩
      refine ⟨x, (World.procs_moved_of_ne hq).trans hx, hc.imp (fun ⟨i, hi, hr⟩ => ⟨i, hi, ?_⟩) id⟩
      exact (ready_eq hm ho hq hx hi).trans hr

theorem owes_self (hp : w.procs p = some ⟨caller, pc⟩) : w.Owes p c ↔ pc.owes w.table c := by
  refine ⟨fun ⟨x, hx, hc⟩ => ?_, fun hc => ⟨_, hp, hc⟩⟩
  rw [hp] at hx
  cases hx
  exact hc

theorem chans_moved (h : ReadyInv w) (hp : w.procs p = some ⟨caller, pc⟩)
    (hstep : ChanStep w.table pc t pc') :
    Owned (fun (owed : Set ℕ) c => c ∈ owed) (fun _ _ v => v.made ∧ v.count = 0)
      (fun _ v => v.made ∧ v.count = 1 ∨ ¬ v.made ∧ v.count = 0)
      (update w.owed p { c | pc'.owes t c }) (w.moved p caller t pc' evs).chan := by
  have hself : ∀ {c}, c ∈ w.owed p ↔ pc.owes w.table c := owes_self hp
  have hview : ∀ {c}, t.chans c = w.table.chans c →
      (c < t.nextChan ↔ c < w.table.nextChan) →
      (w.moved p caller t pc' evs).chan c = w.chan c := by
    intro c hc hlt
    show ChanView.mk (t.chans c) (c < t.nextChan) = ⟨_, _⟩
    rw [hc, propext hlt]
  cases hstep with
  | keep hchans hnext howes =>
    have hsame : ∀ c, (w.moved p caller t pc' evs).chan c = w.chan c :=
      fun c => hview (by rw [hchans]) (by rw [hnext])
    refine h.chans.move (fun c hc => ?_) (fun c hc => ?_) (fun c hc hc' => ?_)
      fun c _ _ => hsame c
    · rw [hsame]
      exact h.chans.held p c (hself.mpr ((howes c).mp hc))
    · exact .inl (hself.mpr ((howes c).mp hc))
    · exact absurd ((howes c).mpr (hself.mp hc)) hc'
  | makes hchans hnext howes =>
    refine h.chans.move (fun c hc => ?_) (fun c hc => ?_) (fun c hc hc' => ?_)
      fun c _ hc' => ?_
    · show c < t.nextChan ∧ t.chans c = 0
      rw [hchans, hnext]
      rcases (howes c).mp hc with hc | rfl
      · obtain ⟨hlt, h0⟩ := h.owes_open (hself.mpr hc)
        exact ⟨Nat.lt_succ_of_lt hlt, h0⟩
      · refine ⟨Nat.lt_succ_self _, ?_⟩
        rcases h.chans.rests w.table.nextChan fun q hq =>
          lt_irrefl _ (h.owes_open hq).1 with ⟨hlt, _⟩ | ⟨_, h0⟩
        · exact absurd hlt (lt_irrefl _)
        · exact h0
    · rcases (howes c).mp hc with hc | rfl
      · exact .inl (hself.mpr hc)
      · exact .inr fun q hq => lt_irrefl _ (h.owes_open hq).1
    · exact absurd ((howes c).mpr (Or.inl (hself.mp hc))) hc'
    · have hne : c ≠ w.table.nextChan := fun he => hc' ((howes c).mpr (Or.inr he))
      exact hview (by rw [hchans]) (by rw [hnext]; omega)
  | @closes r hchans hnext howes hdone =>
    have hsame : ∀ {c}, c ≠ r → (w.moved p caller t pc' evs).chan c = w.chan c :=
      fun hc => hview (by rw [hchans, update_of_ne hc]) (by rw [hnext])
    have hr : r ∈ w.owed p := hself.mpr ((howes r).mpr (Or.inr rfl))
    refine h.chans.move (fun c hc => ?_) (fun c hc => ?_) (fun c hc hc' => ?_)
      fun c hc _ => ?_
    · have hne : c ≠ r := fun he => hdone (he ▸ hc)
      rw [hsame hne]
      exact h.chans.held p c (hself.mpr ((howes c).mpr (Or.inl hc)))
    · exact .inl (hself.mpr ((howes c).mpr (Or.inl hc)))
    · obtain rfl := ((howes c).mp (hself.mp hc)).resolve_left hc'
      obtain ⟨hlt, h0⟩ := h.owes_open hc
      refine .inl ⟨?_, ?_⟩
      · show c < t.nextChan
        rw [hnext]
        exact hlt
      · show t.chans c = 1
        rw [hchans, update_self, h0]
    · exact hsame fun he => hc (he ▸ hr)

theorem chanStep (h : ReadyInv w) (hp : w.procs p = some ⟨caller, pc⟩)
    (hm : Move (w.env p caller) w.table pc t pc' evs) : ChanStep w.table pc t pc' :=
  hm.chan (fun _ hi => (h.owners.busy_of_keeps hp hi).2) fun i c => h.apart p _ i c hp

theorem nextChan_le (hstep : ChanStep w.table pc t pc') : w.table.nextChan ≤ t.nextChan := by
  cases hstep with
  | keep _ hnext | closes _ hnext => rw [hnext]
  | makes _ hnext => rw [hnext]; exact Nat.le_succ _

theorem nextChan_lt (h : ReadyInv w) (hp : w.procs p = some ⟨caller, pc⟩)
    (hstep : ChanStep w.table pc t pc') (hr : (t.slots i).ready = w.table.nextChan)
    (hb : pc'.keepsBusy = some i) : w.table.nextChan < t.nextChan := by
  have howes : pc'.owes t w.table.nextChan := Or.inl ⟨i, hb, hr⟩
  have hnot : ¬ pc.owes w.table w.table.nextChan :=
    fun hc => lt_irrefl _ (h.owes_open ((owes_self hp).mpr hc)).1
  cases hstep with
  | keep _ _ hiff => exact absurd ((hiff _).mp howes) hnot
  | makes _ hnext _ =>
    rw [hnext]
    exact Nat.lt_succ_self _
  | closes _ _ hiff => exact absurd ((hiff _).mpr (Or.inl howes)) hnot

theorem move (h : ReadyInv w) (hp : w.procs p = some ⟨caller, pc⟩)
    (hm : Move (w.env p caller) w.table pc t pc' evs)
    (ho : OwnersInv (w.moved p caller t pc' evs)) :
    ReadyInv (w.moved p caller t pc' evs) := by
  have hstep := h.chanStep hp hm
  have hle := nextChan_le hstep
  -- A slot keeps its `ready`, or `p` has just taken it.
  have hready : ∀ j < t.nextSlot,
      j < w.table.nextSlot ∧ (t.slots j).ready = (w.table.slots j).ready ∨
        (t.slots j).ready = w.table.nextChan ∧ pc'.keepsBusy = some j := by
    intro j hj
    rcases hm.newSlot hj with hlt | hnew
    · exact (hm.slot j).ready.imp (fun hr => ⟨hlt, hr⟩) id
    · exact .inr hnew
  refine ⟨ho, ?_, fun j hj => ?_, fun i hi j hj hij => ?_, fun q x i c hx hi hc => ?_,
    fun q x c hx hc => ?_⟩
  · rw [owed_moved hm ho]
    exact h.chans_moved hp hstep
  · show (t.slots j).ready < t.nextChan
    rcases hready j hj with ⟨hlt, hr⟩ | ⟨hr, hb⟩
    · rw [hr]
      exact (h.ready j hlt).trans_le hle
    · rw [hr]
      exact h.nextChan_lt hp hstep hr hb
  · have hij' : (t.slots i).ready = (t.slots j).ready := hij
    rcases hready i hi with ⟨hli, hri⟩ | ⟨hri, hbi⟩
    · rcases hready j hj with ⟨hlj, hrj⟩ | ⟨hrj, _⟩
      · exact h.distinct i hli j hlj (by rw [← hri, ← hrj, hij'])
      · exact absurd (h.ready i hli) (by rw [← hri, hij', hrj]; exact lt_irrefl _)
    · rcases hready j hj with ⟨hlj, hrj⟩ | ⟨_, hbj⟩
      · exact absurd (h.ready j hlj) (by rw [← hrj, ← hij', hri]; exact lt_irrefl _)
      · exact Option.some.inj (hbi.symm.trans hbj)
  · rcases World.procs_moved_back hx with ⟨rfl, rfl⟩ | ⟨hq, hx⟩
    · cases hm with
      | @swap i' createErr err henf =>
        rw [← Option.some.inj hi, ← Option.some.inj hc]
        have hlt := h.ready i' (h.owners.busy_of_keeps hp rfl).2
        show ((w.table.installCloser i' createErr).slots w.table.nextSlot).ready ≠ _
        rw [show (w.table.installCloser i' createErr).slots w.table.nextSlot = _ from
          update_self ..]
        exact hlt.ne'
      | unmapClosed => cases hi
      | @closed _ after _ => cases after <;> cases hc
      | _ => cases hc
    · show (t.slots i).ready ≠ c
      rw [ready_eq hm ho hq hx hi]
      exact h.apart q x i c hx hi hc
  · rcases World.procs_moved_back hx with ⟨rfl, rfl⟩ | ⟨hq, hx⟩
    · cases hm with
      | park _ _ hs | dropPark hs =>
        rw [← Option.some.inj hc]
        obtain ⟨_, _, hp', hk⟩ := h.owners.keeper hs
        exact h.ready _ (h.owners.busy_of_keeps hp' hk).2
      | @closed _ after _ => cases after <;> cases hc
      | _ => cases hc
    · exact (h.parked q x c hx hc).trans_le hle

/-! ## Whole runs -/

theorem init (grace : ℤ) : ReadyInv (World.init (V := V) grace) where
  owners := .init grace
  chans :=
    { held := fun _ _ ⟨_, hp, _⟩ => nomatch hp
      unique := fun _ _ _ ⟨_, hp, _⟩ => nomatch hp
      rests := fun _ _ => Or.inr ⟨Nat.not_lt_zero _, rfl⟩ }
  ready := fun _ hi => absurd hi (Nat.not_lt_zero _)
  distinct := fun _ hi => absurd hi (Nat.not_lt_zero _)
  apart := fun _ _ _ _ hp => absurd hp World.procs_init
  parked := fun _ _ _ hp => absurd hp World.procs_init

theorem spawned (h : ReadyInv w) {w' : World V} (ho : OwnersInv w')
    (hslots : w'.table.slots = w.table.slots) (hnext : w'.table.nextSlot = w.table.nextSlot)
    (hchans : w'.table.chans = w.table.chans) (hnextChan : w'.table.nextChan = w.table.nextChan)
    (hprocs : w'.procs = update w.procs w.next (some ⟨caller, pc⟩))
    (hb : pc.keepsBusy = none) (hc : pc.toClose = none) (hpark : pc.parkedOn = none) :
    ReadyInv w' := by
  have hback : ∀ {q x}, w'.procs q = some x → x = ⟨caller, pc⟩ ∨ w.procs q = some x :=
    fun hq => World.procs_update_back (hprocs ▸ hq)
  have howes : ∀ {x : Proc V} {c}, x.pc.owes w'.table c ↔ x.pc.owes w.table c := by
    intro x c
    unfold Pc.owes
    rw [hslots]
  have howed : w'.owed = w.owed := by
    funext q
    ext c
    constructor
    · rintro ⟨x, hx, hxc⟩
      rcases hback hx with rfl | hx
      · exact absurd hxc (Pc.owes_none hb hc)
      · exact ⟨x, hx, howes.mp hxc⟩
    · rintro ⟨x, hx, hxc⟩
      exact ⟨x, hprocs ▸ h.owners.procs_spawn hx, howes.mpr hxc⟩
  have hview : w'.chan = w.chan := by
    funext c
    show ChanView.mk (w'.table.chans c) (c < w'.table.nextChan) = _
    rw [hchans, hnextChan]
    rfl
  refine ⟨ho, ?_, ?_, ?_, fun q x i c hx hi hr => ?_, fun q x c hx hr => ?_⟩
  · rw [howed, hview]
    exact h.chans
  · rw [hslots, hnext, hnextChan]
    exact h.ready
  · rw [hslots, hnext]
    exact h.distinct
  · rw [hslots]
    rcases hback hx with rfl | hx
    · rw [hb] at hi
      cases hi
    · exact h.apart q x i c hx hi hr
  · rw [hnextChan]
    rcases hback hx with rfl | hx
    · rw [hpark] at hr
      cases hr
    · exact h.parked q x c hx hr

theorem step {w' : World V} {a : Action V} (h : ReadyInv w) (hs : w.step a = some w') :
    ReadyInv w' := by
  have ho := h.owners.step hs
  cases World.step_cases hs with
  | openKey | reset | fire => exact h.spawned ho rfl rfl rfl rfl rfl rfl rfl rfl
  | cancel | tick => exact ⟨ho, h.chans, h.ready, h.distinct, h.apart, h.parked⟩
  | run hp hm => exact h.move hp hm ho

end ReadyInv

end MiddlewareUtils.Reclaim
