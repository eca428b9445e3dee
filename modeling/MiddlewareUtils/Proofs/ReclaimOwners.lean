import MiddlewareUtils.Lib.Ownership
import MiddlewareUtils.Reclaim.Lifecycle
import MiddlewareUtils.Reclaim.Moves

/-!
# Who owns a slot

A slot in transition belongs to one process: the Open that creates or wakes
it, the drop that puts it to sleep, the drop, callback or Reset that closes
it. `Pc.claim` is the table of that ownership: for every program counter and
slot, the state the slot is kept in and the phase its incarnation has
reached. A slot nobody claims rests awake, asleep or gone.

This is `Lib.Ownership` with slots as resources, and every step is one of
its moves. Taking a slot is always taking one that is awake or asleep, and
claimed slots are busy or gone, so it was nobody's; a new slot is nobody's
because it did not exist. Reset does not disturb this: it takes resting
slots and leaves busy ones to their owners.
-/

namespace MiddlewareUtils.Reclaim

open Lib Function

variable {V : Type}

def AfterClose.keeper : AfterClose → Option ℕ
  | unmap i _ => some i
  | finish _ | reset _ => none

def AfterClose.closingState (after : AfterClose) (i : ℕ) : SlotState :=
  if after.keeper = some i then .busy else .gone

structure Claim where
  state : SlotState
  phases : List Phase

def Pc.claim : Pc V → ℕ → Option Claim
  | createCall i, j => if j = i then some ⟨.busy, [.unborn]⟩ else none
  | createRun i, j => if j = i then some ⟨.busy, [.creating]⟩ else none
  | publishPut i _ _, j => if j = i then some ⟨.busy, [.awake]⟩ else none
  | createFailed i _, j => if j = i then some ⟨.busy, [.failed]⟩ else none
  | wakeCall i, j => if j = i then some ⟨.busy, [.asleep]⟩ else none
  | wakeRun i, j => if j = i then some ⟨.busy, [.waking]⟩ else none
  | publishWake i, j => if j = i then some ⟨.busy, [.awake]⟩ else none
  | sleepCall i _, j => if j = i then some ⟨.busy, [.awake]⟩ else none
  | sleepRun i _, j => if j = i then some ⟨.busy, [.sleeping]⟩ else none
  | slept i _, j => if j = i then some ⟨.busy, [.asleep]⟩ else none
  | panicked i _ _, j => if j = i then some ⟨.busy, [.broken]⟩ else none
  | closeReady i closer _ err, j =>
    if j = i then some ⟨(AfterClose.unmap closer err).closingState i, [.broken]⟩
    else if (AfterClose.unmap closer err).keeper = some j then some ⟨.busy, [.keeper]⟩ else none
  | closeCall i after, j =>
    if j = i then some ⟨after.closingState i, [.asleep, .broken]⟩
    else if after.keeper = some j then some ⟨.busy, [.keeper]⟩ else none
  | closeRun i after, j =>
    if j = i then some ⟨after.closingState i, [.closing]⟩
    else if after.keeper = some j then some ⟨.busy, [.keeper]⟩ else none
  | unmapClosed i _, j => if j = i then some ⟨.busy, [.closed, .keeper]⟩ else none
  | resetSleepCall i _, j => if j = i then some ⟨.gone, [.awake]⟩ else none
  | resetSleepRun i _, j => if j = i then some ⟨.gone, [.sleeping]⟩ else none
  | _, _ => none

structure SlotView where
  state : SlotState
  finished : Bool
  made : Prop
  calls : List Call

def World.view (w : World V) (i : ℕ) : SlotView :=
  ⟨(w.table.slots i).state, (w.table.slots i).finished, i < w.table.nextSlot, calls i w.log⟩

/-- The slot exists, its incarnation is in phase `ph`, and unless it has
ended or is a closer, `finished` is open. -/
structure InPhase (ph : Phase) (s : SlotView) : Prop where
  made : s.made
  trace : Trace ph s.calls
  watched : s.state = .gone ∨ ph = .keeper ∨ s.finished = true

def Meets (c : Claim) (s : SlotView) : Prop :=
  s.state = c.state ∧ ∃ ph ∈ c.phases, InPhase ph s

def Owns : Option (Proc V) → ℕ → Prop
  | none, _ => False
  | some q, i => q.pc.claim i ≠ none

def OwnerOk : Option (Proc V) → ℕ → SlotView → Prop
  | none, _, _ => False
  | some q, i, s => ∀ c, q.pc.claim i = some c → Meets c s

/-- Awake and asleep are the states a slot rests in with its value. -/
inductive Resting : SlotState → Phase → Prop
  | awake : Resting .awake .awake
  | asleep : Resting .asleep .asleep

inductive AtRest (i : ℕ) (s : SlotView) : Prop
  | resting {st ph} (hr : Resting st ph) (hst : s.state = st) (hin : InPhase ph s)
  | ended {ph} (hph : ph = .failed ∨ ph = .closed ∨ ph = .keeper) (hst : s.state = .gone)
      (hin : InPhase ph s)
  | unmade (hst : s.state = .gone) (hmade : ¬ s.made) (hcalls : s.calls = [])

structure OwnersInv (w : World V) : Prop where
  unborn : ∀ p, w.next ≤ p → w.procs p = none
  owned : Owned Owns OwnerOk AtRest w.procs w.view

/-! ## Claims -/

theorem AfterClose.closingState_cases (after : AfterClose) (i : ℕ) :
    after.closingState i = .busy ∨ after.closingState i = .gone := by
  unfold AfterClose.closingState
  split
  · exact .inl rfl
  · exact .inr rfl

theorem Pc.claim_state {pc : Pc V} {i : ℕ} {c : Claim} (h : pc.claim i = some c) :
    c.state = .busy ∨ c.state = .gone := by
  have hif : ∀ {j : ℕ} {d : Claim} {o : Option Claim}, (if i = j then some d else o) = some c →
      c = d ∨ o = some c := by
    intro j d o hc
    split at hc
    · exact .inl (Option.some.inj hc).symm
    · exact .inr hc
  have hkeeper : ∀ {P : Prop} [Decidable P], (if P then some (Claim.mk .busy [.keeper]) else none)
      = some c → c.state = .busy := by
    intro P _ hc
    split at hc
    · rw [← Option.some.inj hc]
    · cases hc
  unfold Pc.claim at h
  split at h
  case h_12 =>
      exact (hif h).elim (fun hc => hc ▸ AfterClose.closingState_cases ..)
        (fun hc => Or.inl (hkeeper hc))
  case h_13 =>
      exact (hif h).elim (fun hc => hc ▸ AfterClose.closingState_cases ..)
        (fun hc => Or.inl (hkeeper hc))
  case h_14 =>
      exact (hif h).elim (fun hc => hc ▸ AfterClose.closingState_cases ..)
        (fun hc => Or.inl (hkeeper hc))
  case h_16 => exact (hif h).elim (fun hc => Or.inr (hc ▸ rfl)) nofun
  case h_17 => exact (hif h).elim (fun hc => Or.inr (hc ▸ rfl)) nofun
  case h_18 => cases h
  all_goals exact (hif h).elim (fun hc => Or.inl (hc ▸ rfl)) nofun

theorem keeper_unmap (i : ℕ) (err : Option OpenError) : (AfterClose.unmap i err).keeper = some i :=
  rfl

theorem closingState_self (i : ℕ) (err : Option OpenError) :
    (AfterClose.unmap i err).closingState i = .busy :=
  if_pos rfl

section Claims

variable {i j closer ready : ℕ} {after : AfterClose} {err createErr : Option OpenError}

theorem claim_panicked :
    (Pc.panicked (V := V) i createErr err).claim i = some ⟨.busy, [.broken]⟩ :=
  if_pos rfl

theorem claim_closeReady : (Pc.closeReady (V := V) i closer ready err).claim i =
    some ⟨(AfterClose.unmap closer err).closingState i, [.broken]⟩ :=
  if_pos rfl

theorem claim_closeReady_of_ne (hj : j ≠ i) : (Pc.closeReady (V := V) i closer ready err).claim j =
    if (AfterClose.unmap closer err).keeper = some j then some ⟨.busy, [.keeper]⟩ else none :=
  if_neg hj

theorem claim_closeCall :
    (Pc.closeCall (V := V) i after).claim i = some ⟨after.closingState i, [.asleep, .broken]⟩ :=
  if_pos rfl

theorem claim_closeCall_of_ne (hj : j ≠ i) : (Pc.closeCall (V := V) i after).claim j =
    if after.keeper = some j then some ⟨.busy, [.keeper]⟩ else none :=
  if_neg hj

theorem claim_closeRun :
    (Pc.closeRun (V := V) i after).claim i = some ⟨after.closingState i, [.closing]⟩ :=
  if_pos rfl

theorem claim_closeRun_of_ne (hj : j ≠ i) : (Pc.closeRun (V := V) i after).claim j =
    if after.keeper = some j then some ⟨.busy, [.keeper]⟩ else none :=
  if_neg hj

end Claims

/-! ## One step of one process -/

def Free (v : SlotView) : Prop := v.state = .awake ∨ v.state = .asleep ∨ ¬ v.made

def Turn (i : ℕ) (v v' : SlotView) : Option Claim → Option Claim → Prop
  | none, none => v' = v
  | none, some c => Free v ∧ Meets c v'
  | some _, some c => Meets c v'
  | some _, none => AtRest i v'

def Keeps : Option Claim → Option Claim → Prop
  | none, none => True
  | some c, some c' => c'.state = c.state ∧ ∀ ph ∈ c.phases, ph ∈ c'.phases
  | _, _ => False

theorem Keeps.refl : ∀ o : Option Claim, Keeps o o
  | none => trivial
  | some _ => ⟨rfl, fun _ h => h⟩

theorem Keeps.turn {i : ℕ} {v : SlotView} {o o' : Option Claim} (h : Keeps o o')
    (hv : ∀ c, o = some c → Meets c v) : Turn i v v o o' := by
  cases o with
  | none =>
    cases o' with
    | none => rfl
    | some _ => exact h.elim
  | some c =>
    cases o' with
    | none => exact h.elim
    | some c' =>
      obtain ⟨hs, ph, hmem, hin⟩ := hv c rfl
      exact ⟨hs.trans h.1.symm, ph, h.2 ph hmem, hin⟩

theorem InPhase.start {ph ph' : Phase} {v : SlotView} {hk : Hook} (h : InPhase ph v)
    (hph : ph.start hk = some ph') :
    InPhase ph' ⟨v.state, v.finished, v.made, v.calls ++ [⟨hk, .running⟩]⟩ := by
  refine ⟨h.made, h.trace.start hph, ?_⟩
  rcases h.watched with hs | rfl | hf
  · exact .inl hs
  · cases hph
  · exact .inr (Or.inr hf)

theorem InPhase.ret {ph ph' : Phase} {v : SlotView} {hk : Hook} {ok : Bool} (h : InPhase ph v)
    (hph : ph.ret hk ok = some ph') :
    InPhase ph' ⟨v.state, v.finished, v.made, settle hk ok v.calls⟩ := by
  refine ⟨h.made, h.trace.ret hph, ?_⟩
  rcases h.watched with hs | rfl | hf
  · exact .inl hs
  · cases hph
  · exact .inr (Or.inr hf)

theorem keeps_of_ne {i : ℕ} {c c' : Claim} : ∀ j ≠ i,
    Keeps (if j = i then some c else none) (if j = i then some c' else none) := by
  intro j hj
  rw [if_neg hj, if_neg hj]
  trivial

theorem foreign_nil (j : ℕ) : ∀ e ∈ [], Event.foreign j e := nofun

theorem foreign_single {e : Event} (h : ∀ j, e.foreign j) (j : ℕ) :
    ∀ e' ∈ [e], Event.foreign j e' := by
  intro e' he
  rw [List.mem_singleton.mp he]
  exact h j

theorem foreign_leave {p : ℕ} {err : Option OpenError} (j : ℕ) :
    ∀ e ∈ leave p err, Event.foreign j e := by
  intro e he
  cases err with
  | none => cases he
  | some err => exact foreign_single (e := .failed p err) (fun _ => trivial) j e he

theorem InPhase.settled {ph : Phase} {v : SlotView} {st : SlotState} (h : InPhase ph v)
    (hst : v.state = .busy) (hph : ph ≠ .keeper) :
    InPhase ph ⟨st, v.finished, v.made, v.calls⟩ := by
  refine ⟨h.made, h.trace, ?_⟩
  rcases h.watched with hg | hk | hw
  · rw [hst] at hg
    cases hg
  · exact absurd hk hph
  · exact .inr (Or.inr hw)

theorem InPhase.gone {ph : Phase} {v : SlotView} {fin : Bool} (h : InPhase ph v) :
    InPhase ph ⟨.gone, fin, v.made, v.calls⟩ :=
  ⟨h.made, h.trace, Or.inl rfl⟩

theorem foreign_left {p : ℕ} {after : AfterClose} (j : ℕ) :
    ∀ e ∈ after.left p, Event.foreign j e := by
  cases after with
  | finish err => exact foreign_leave j
  | unmap | reset => exact foreign_nil j

namespace OwnersInv

variable {w : World V} {p : ℕ} {caller : Caller} {pc pc' : Pc V} {t : Table V}
  {evs : List Event} {i : ℕ} {c : Claim}

theorem meets (h : OwnersInv w) {q : Proc V} (hp : w.procs p = some q)
    (hc : q.pc.claim i = some c) : Meets c (w.view i) := by
  have hown : Owns (w.procs p) i := by
    rw [hp]
    show q.pc.claim i ≠ none
    rw [hc]
    exact nofun
  have hok := h.owned.held p i hown
  rw [hp] at hok
  exact hok c hc

theorem claim_unique (h : OwnersInv w) {p' : ℕ} {q q' : Proc V} {c' : Claim}
    (hp : w.procs p = some q) (hp' : w.procs p' = some q') (hc : q.pc.claim i = some c)
    (hc' : q'.pc.claim i = some c') : p = p' := by
  refine h.owned.unique p p' i ?_ ?_
  · rw [hp]
    exact Option.ne_none_iff_exists'.mpr ⟨_, hc⟩
  · rw [hp']
    exact Option.ne_none_iff_exists'.mpr ⟨_, hc'⟩

theorem procs_spawn (h : OwnersInv w) {q : ℕ} {x : Proc V} {o : Option (Proc V)}
    (hq : w.procs q = some x) : update w.procs w.next o q = some x := by
  refine (update_of_ne ?_ ..).trans hq
  rintro rfl
  rw [h.unborn w.next (le_refl _)] at hq
  cases hq

theorem nobodys (h : OwnersInv w) (hi : Free (w.view i)) (q : ℕ) :
    ¬ Owns (w.procs q) i := by
  intro hq
  cases hproc : w.procs q with
  | none => rw [hproc] at hq; exact hq
  | some r =>
    rw [hproc] at hq
    obtain ⟨c, hc⟩ := Option.ne_none_iff_exists'.mp hq
    obtain ⟨hst, ph, _, hph⟩ := h.meets hproc hc
    rcases hi with hi | hi | hi
    · rcases Pc.claim_state hc with hb | hb <;> rw [hi, hb] at hst <;> cases hst
    · rcases Pc.claim_state hc with hb | hb <;> rw [hi, hb] at hst <;> cases hst
    · exact hi hph.made

theorem free_of_resting {st : SlotState} {ph : Phase} (hr : Resting st ph)
    (hst : (w.table.slots i).state = st) : Free (w.view i) := by
  cases hr with
  | awake => exact .inl hst
  | asleep => exact .inr (Or.inl hst)

theorem resting (h : OwnersInv w) {st : SlotState} {ph : Phase} (hr : Resting st ph)
    (hst : (w.table.slots i).state = st) : InPhase ph (w.view i) := by
  have hst' : (w.view i).state = st := hst
  cases h.owned.rests i (h.nobodys (free_of_resting hr hst)) with
  | resting hr' hst'' hin =>
    rw [hst'] at hst''
    subst hst''
    cases hr <;> cases hr' <;> exact hin
  | ended _ hgone _ | unmade hgone _ _ =>
    rw [hst'] at hgone
    subst hgone
    cases hr

theorem not_resting (h : OwnersInv w) {q : Proc V} (hp : w.procs p = some q)
    (hc : q.pc.claim i = some c) {st : SlotState} {ph : Phase} (hr : Resting st ph) :
    (w.table.slots i).state ≠ st := by
  intro hst
  refine h.nobodys (free_of_resting hr hst) p ?_
  rw [hp]
  exact Option.ne_none_iff_exists'.mpr ⟨c, hc⟩

theorem unmade (h : OwnersInv w) (hi : w.table.nextSlot ≤ i) :
    (w.table.slots i).state = .gone ∧ calls i w.log = [] := by
  have hmade : ¬ (w.view i).made := Nat.not_lt.mpr hi
  cases h.owned.rests i (h.nobodys (Or.inr (Or.inr hmade))) with
  | resting _ _ hin | ended _ _ hin => exact absurd hin.made hmade
  | unmade hst _ hcalls => exact ⟨hst, hcalls⟩

section Step

variable (h : OwnersInv w) (hp : w.procs p = some ⟨caller, pc⟩)

include h hp

theorem turn
    (hturn : ∀ j, Turn j (w.view j) ((w.moved p caller t pc' evs).view j)
      (pc.claim j) (pc'.claim j)) :
    OwnersInv (w.moved p caller t pc' evs) := by
  refine ⟨fun q hq => ?_, ?_⟩
  · have hne : q ≠ p := by
      rintro rfl
      rw [h.unborn q hq] at hp
      cases hp
    exact (update_of_ne hne ..).trans (h.unborn q hq)
  · refine h.owned.move (fun r hr => ?_) (fun r hr => ?_) (fun r hr hr' => ?_) fun r hr hr' => ?_
    · intro c hc
      have ht := hturn r
      rw [hc] at ht
      cases hold : pc.claim r with
      | none => rw [hold] at ht; exact ht.2
      | some _ => rw [hold] at ht; exact ht
    · cases hold : pc.claim r with
      | some c => exact .inl (hp ▸ show pc.claim r ≠ none by rw [hold]; exact nofun)
      | none =>
        obtain ⟨c, hc⟩ := Option.ne_none_iff_exists'.mp hr
        have ht := hturn r
        rw [hold, hc] at ht
        exact .inr (h.nobodys ht.1)
    · have hnone : pc'.claim r = none := not_ne_iff.mp hr'
      rw [hp] at hr
      obtain ⟨c, hc⟩ := Option.ne_none_iff_exists'.mp hr
      have ht := hturn r
      rw [hc, hnone] at ht
      exact ht
    · have hnone' : pc'.claim r = none := not_ne_iff.mp hr'
      rw [hp] at hr
      have hnone : pc.claim r = none := not_ne_iff.mp hr
      have ht := hturn r
      rw [hnone, hnone'] at ht
      exact ht

theorem touch {s : Slot V}
    (ht : w.table.Touches i s t) (hevs : ∀ j ≠ i, ∀ e ∈ evs, e.foreign j)
    (hkeep : ∀ j ≠ i, Keeps (pc.claim j) (pc'.claim j))
    (hi : Turn i (w.view i)
      ⟨s.state, s.finished, i < w.table.nextSlot, calls i (w.log ++ evs)⟩
      (pc.claim i) (pc'.claim i)) :
    OwnersInv (w.moved p caller t pc' evs) := by
  refine h.turn hp fun j => ?_
  by_cases hj : j = i
  · subst hj
    have hview : (w.moved p caller t pc' evs).view j =
        ⟨s.state, s.finished, j < w.table.nextSlot, calls j (w.log ++ evs)⟩ := by
      show SlotView.mk (t.slots j).state (t.slots j).finished (j < t.nextSlot) _ = _
      rw [ht.slots, update_self, ht.nextSlot]
      rfl
    rw [hview]
    exact hi
  · have hview : (w.moved p caller t pc' evs).view j = w.view j := by
      show SlotView.mk (t.slots j).state (t.slots j).finished (j < t.nextSlot)
        (calls j (w.log ++ evs)) = _
      rw [ht.slots, update_of_ne hj, ht.nextSlot, calls_of_foreign (hevs j hj)]
      rfl
    rw [hview]
    exact (hkeep j hj).turn fun c hc => h.meets hp hc

theorem quiet
    (hview : ∀ j, (w.moved p caller t pc' evs).view j = w.view j)
    (hkeep : ∀ j, Keeps (pc.claim j) (pc'.claim j)) :
    OwnersInv (w.moved p caller t pc' evs) := by
  refine h.turn hp fun j => ?_
  rw [hview j]
  exact (hkeep j).turn fun c hc => h.meets hp hc

theorem started {hk : Hook} {key : String} {c' : Claim} (hc : pc.claim i = some c)
    (hc' : pc'.claim i = some c')
    (hst : c'.state = c.state) (hph : ∀ ph ∈ c.phases, ∃ ph' ∈ c'.phases, ph.start hk = some ph')
    (hkeep : ∀ j ≠ i, Keeps (pc.claim j) (pc'.claim j)) :
    OwnersInv (w.moved p caller w.table pc' [.start hk i key]) := by
  refine h.touch hp (w.table.touches_self i) (fun j hj e he => ?_) hkeep ?_
  · rw [List.mem_singleton.mp he]
    exact hj.symm
  · obtain ⟨hs, ph, hmem, hin⟩ := h.meets hp hc
    obtain ⟨ph', hmem', hstart⟩ := hph ph hmem
    rw [hc, hc', calls_start]
    exact ⟨hs.trans hst.symm, ph', hmem', hin.start hstart⟩

theorem returned {hk : Hook} {key : String} {ok : Bool} {c' : Claim} (hc : pc.claim i = some c)
    (hc' : pc'.claim i = some c') (hst : c'.state = c.state)
    (hph : ∀ ph ∈ c.phases, ∃ ph' ∈ c'.phases, ph.ret hk ok = some ph')
    (hkeep : ∀ j ≠ i, Keeps (pc.claim j) (pc'.claim j)) :
    OwnersInv (w.moved p caller w.table pc' [.ret hk i key ok]) := by
  refine h.touch hp (w.table.touches_self i) (fun j hj e he => ?_) hkeep ?_
  · rw [List.mem_singleton.mp he]
    exact hj.symm
  · obtain ⟨hs, ph, hmem, hin⟩ := h.meets hp hc
    obtain ⟨ph', hmem', hret⟩ := hph ph hmem
    rw [hc, hc', calls_ret]
    exact ⟨hs.trans hst.symm, ph', hmem', hin.ret hret⟩

theorem taken {s : Slot V} {st : SlotState}
    {ph : Phase} {c' : Claim} (hr : Resting st ph) (hst : (w.table.slots i).state = st)
    (ht : w.table.Touches i s t) (hevs : ∀ j, ∀ e ∈ evs, e.foreign j)
    (hc : ∀ j, pc.claim j = none) (hc' : pc'.claim i = some c')
    (hother : ∀ j ≠ i, pc'.claim j = none) (hs : s.state = c'.state)
    (hfin : s.state = .gone ∨ s.finished = (w.table.slots i).finished) (hph : ph ∈ c'.phases) :
    OwnersInv (w.moved p caller t pc' evs) := by
  have hin : InPhase ph (w.view i) := h.resting hr hst
  have hst' : (w.view i).state = st := hst
  refine h.touch hp ht (fun j _ => hevs j) (fun j hj => ?_) ?_
  · rw [hc j, hother j hj]
    trivial
  · rw [hc i, hc', calls_of_foreign (hevs i)]
    refine ⟨free_of_resting hr hst, hs, ph, hph, hin.made, hin.trace, ?_⟩
    rcases hfin with hg | hf
    · exact .inl hg
    · rcases hin.watched with hg | hk | hw
      · rw [hst'] at hg
        subst hg
        cases hr
      · subst hk
        cases hr
      · exact .inr (Or.inr (hf.trans hw))

theorem rested {s : Slot V}
    {st : SlotState} {ph : Phase} (hr : Resting st ph) (ht : w.table.Touches i s t)
    (hevs : ∀ j, ∀ e ∈ evs, e.foreign j) (hc : pc.claim i = some ⟨.busy, [ph]⟩)
    (hother : ∀ j ≠ i, pc.claim j = none) (hc' : ∀ j, pc'.claim j = none)
    (hs : s.state = st) (hfin : s.finished = (w.table.slots i).finished) :
    OwnersInv (w.moved p caller t pc' evs) := by
  refine h.touch hp ht (fun j _ => hevs j) (fun j hj => ?_) ?_
  · rw [hother j hj, hc' j]
    trivial
  · rw [hc, hc' i, calls_of_foreign (hevs i), hfin]
    obtain ⟨hbusy, ph', hmem, hin⟩ := h.meets hp hc
    rw [List.mem_singleton.mp hmem] at hin
    refine .resting hr hs (hin.settled hbusy ?_)
    rintro rfl
    cases hr

theorem ended {s : Slot V}
    (ht : w.table.Touches i s t) (hevs : ∀ j, ∀ e ∈ evs, e.foreign j)
    (hc : pc.claim i = some c) (hother : ∀ j ≠ i, pc.claim j = none)
    (hc' : ∀ j, pc'.claim j = none) (hs : s.state = .gone)
    (hph : ∀ ph ∈ c.phases, ph = .failed ∨ ph = .closed ∨ ph = .keeper) :
    OwnersInv (w.moved p caller t pc' evs) := by
  refine h.touch hp ht (fun j _ => hevs j) (fun j hj => ?_) ?_
  · rw [hother j hj, hc' j]
    trivial
  · rw [hc, hc' i, calls_of_foreign (hevs i), hs]
    obtain ⟨_, ph, hmem, hin⟩ := h.meets hp hc
    exact .ended (hph ph hmem) rfl hin.gone

theorem quiet_touch {s : Slot V}
    (ht : w.table.Touches i s t) (hst : s.state = (w.table.slots i).state)
    (hfin : s.finished = (w.table.slots i).finished) (hevs : ∀ j, ∀ e ∈ evs, e.foreign j)
    (hkeep : ∀ j, Keeps (pc.claim j) (pc'.claim j)) :
    OwnersInv (w.moved p caller t pc' evs) := by
  refine h.touch hp ht (fun j _ => hevs j) (fun j _ => hkeep j) ?_
  rw [hst, hfin, calls_of_foreign (hevs i)]
  exact (hkeep i).turn fun c hc => h.meets hp hc

theorem quiet_self
    (hevs : ∀ j, ∀ e ∈ evs, e.foreign j) (hkeep : ∀ j, Keeps (pc.claim j) (pc'.claim j)) :
    OwnersInv (w.moved p caller w.table pc' evs) :=
  h.quiet_touch hp (w.table.touches_self 0) rfl rfl hevs hkeep

end Step

theorem view_moved_nil {j : ℕ} : (w.moved p caller t pc' []).view j =
    ⟨(t.slots j).state, (t.slots j).finished, j < t.nextSlot, calls j w.log⟩ := by
  rw [← calls_of_foreign (foreign_nil j)]
  rfl

theorem view_old {j : ℕ} (hj : j ≠ w.table.nextSlot) (hnext : t.nextSlot = w.table.nextSlot + 1)
    (hslot : t.slots j = w.table.slots j) : (w.moved p caller t pc' []).view j = w.view j := by
  rw [view_moved_nil, hslot, hnext]
  show SlotView.mk _ _ _ _ = SlotView.mk _ _ _ _
  congr 1
  exact propext (by omega)

theorem registered (h : OwnersInv w) (hp : w.procs p = some ⟨caller, .lookup⟩) {key : String} :
    OwnersInv (w.moved p caller (w.table.register key) (.createCall w.table.nextSlot) []) := by
  refine h.turn hp fun j => ?_
  by_cases hj : j = w.table.nextSlot
  · subst hj
    have hunmade := h.unmade (le_refl w.table.nextSlot)
    rw [view_moved_nil, hunmade.2, show (w.table.register key).slots w.table.nextSlot =
      Table.registered key w.table.nextChan from update_self ..,
      show (Pc.createCall (V := V) w.table.nextSlot).claim w.table.nextSlot = _ from if_pos rfl]
    exact ⟨Or.inr (Or.inr (lt_irrefl _)), rfl, .unborn, List.mem_singleton.mpr rfl,
      Nat.lt_succ_self _, .unborn, Or.inr (Or.inr rfl)⟩
  · rw [view_old hj rfl (update_of_ne hj ..),
      show (Pc.createCall (V := V) w.table.nextSlot).claim j = none from if_neg hj]
    rfl

theorem swapped (h : OwnersInv w) {createErr err : Option OpenError}
    (hp : w.procs p = some ⟨caller, .panicked i createErr err⟩) :
    OwnersInv (w.moved p caller (w.table.installCloser i createErr)
      (.closeReady i w.table.nextSlot (w.table.slots i).ready err) []) := by
  obtain ⟨_, ph, hmem, hin⟩ := h.meets hp claim_panicked
  rw [List.mem_singleton.mp hmem] at hin
  have hi : i < w.table.nextSlot := hin.made
  have hunmade := h.unmade (le_refl w.table.nextSlot)
  refine h.turn hp fun j => ?_
  by_cases hj : j = i
  · subst hj
    have hne : j ≠ w.table.nextSlot := hi.ne
    rw [view_moved_nil, claim_panicked, claim_closeReady,
      show (w.table.installCloser j createErr).slots j = _ from
        (update_of_ne hne ..).trans (update_self ..)]
    refine ⟨(if_neg fun hn => hne (Option.some.inj hn).symm).symm, .broken,
      List.mem_singleton.mpr rfl, Nat.lt_succ_of_lt hi, hin.trace, Or.inl rfl⟩
  · rw [claim_closeReady_of_ne hj, show (Pc.panicked (V := V) i createErr err).claim j = none from
      if_neg hj]
    by_cases hn : j = w.table.nextSlot
    · subst hn
      rw [view_moved_nil, keeper_unmap, if_pos rfl, hunmade.2,
        show (w.table.installCloser i createErr).slots w.table.nextSlot = _ from update_self ..]
      exact ⟨Or.inr (Or.inr (lt_irrefl _)), rfl, .keeper, List.mem_singleton.mpr rfl,
        Nat.lt_succ_self _, .keeper, Or.inr (Or.inl rfl)⟩
    · rw [view_old hn rfl ((update_of_ne hn ..).trans (update_of_ne hj ..)), keeper_unmap,
        if_neg fun hk => hn (Option.some.inj hk).symm]
      rfl

theorem closeReturned (h : OwnersInv w) {after : AfterClose} {key : String} {ok : Bool} {q : ℕ}
    (hp : w.procs p = some ⟨caller, .closeRun i after⟩) :
    OwnersInv (w.moved p caller w.table after.next (.ret .close i key ok :: after.left q)) := by
  have hret : Phase.closing.ret .close ok = some .closed := by cases ok <;> rfl
  obtain ⟨hst, ph, hmem, hin⟩ := h.meets hp claim_closeRun
  rw [List.mem_singleton.mp hmem] at hin
  have hevs : ∀ j ≠ i, ∀ e ∈ .ret .close i key ok :: after.left q, Event.foreign j e := by
    intro j hj e he
    rcases List.mem_cons.mp he with rfl | he
    · exact hj.symm
    · exact foreign_left j e he
  have hcalls : calls i (w.log ++ .ret .close i key ok :: after.left q) =
      settle .close ok (calls i w.log) := by
    rw [List.append_cons, calls_of_foreign (foreign_left i), calls_ret]
  -- The keeper's claim, if it is another slot's, only gets weaker.
  have hkeep : ∀ j ≠ i, Keeps ((Pc.closeRun (V := V) i after).claim j)
      ((after.next : Pc V).claim j) := by
    intro j hj
    rw [claim_closeRun_of_ne hj]
    cases after with
    | finish | reset => trivial
    | unmap c err =>
      by_cases hc : j = c
      · subst hc
        rw [keeper_unmap, if_pos rfl,
          show (AfterClose.next (V := V) (.unmap j err)).claim j = _ from if_pos rfl]
        exact ⟨rfl, by decide⟩
      · rw [keeper_unmap, if_neg fun hk => hc (Option.some.inj hk).symm,
          show (AfterClose.next (V := V) (.unmap c err)).claim j = none from if_neg hc]
        trivial
  refine h.touch hp (w.table.touches_self i) hevs hkeep ?_
  rw [claim_closeRun, hcalls]
  by_cases hown : after.keeper = some i
  · obtain ⟨err, rfl⟩ : ∃ err, after = .unmap i err := by
      cases after with
      | unmap c err => exact ⟨err, by rw [Option.some.inj hown]⟩
      | finish | reset => cases hown
    rw [show (AfterClose.next (V := V) (.unmap i err)).claim i = _ from if_pos rfl]
    exact ⟨hst.trans (if_pos rfl), .closed, List.mem_cons_self, hin.ret hret⟩
  · have hnone : (after.next : Pc V).claim i = none := by
      cases after with
      | unmap c err => exact if_neg fun hi => hown (congrArg some hi.symm)
      | finish | reset => rfl
    rw [hnone]
    exact .ended (Or.inr (Or.inl rfl)) (hst.trans (if_neg hown)) (hin.ret hret)

theorem move (h : OwnersInv w) (hp : w.procs p = some ⟨caller, pc⟩)
    (hm : Move (w.env p caller) w.table pc t pc' evs) :
    OwnersInv (w.moved p caller t pc' evs) := by
  cases hm with
  | create _ _ => exact h.registered hp
  | bind _ _ _ =>
    exact h.quiet_touch hp (w.table.touches_hold _) rfl rfl (foreign_single fun _ => trivial)
      fun _ => trivial
  | @wake _ _ _ i _ _ hs =>
    exact h.taken hp .asleep hs (w.table.touches_reclaim i) (foreign_single fun _ => trivial)
      (fun _ => rfl) (if_pos rfl) (fun j hj => if_neg hj) rfl (Or.inr rfl)
      (List.mem_singleton.mpr rfl)
  | retry _ _ _ =>
    exact h.quiet_touch hp (w.table.touches_forget 0 _) rfl rfl foreign_nil fun _ => trivial
  | park | unpark | again | refuse | keep | poll | pollEnded | afterFunc | watchDone | watchOn
  | dropPark | dropUnpark | resetDone | resetSkip =>
    exact h.quiet_self hp foreign_nil fun _ => trivial
  | replay | openedEnded | opened =>
    exact h.quiet_self hp (foreign_single fun _ => trivial) fun _ => trivial
  | dropStop | expireSkip => exact h.quiet_self hp foreign_leave fun _ => trivial
  | release =>
    exact h.quiet_touch hp (w.table.touches_releaseHolder _) rfl rfl
      (foreign_single fun _ => trivial) fun _ => trivial
  | createStart | wakeStart | sleepStart | resetSleepStart =>
    exact h.started hp (if_pos rfl) (if_pos rfl) rfl (by decide) keeps_of_ne
  | created | createFail | woken | wakePanic | slept | sleepPanic =>
    exact h.returned hp (if_pos rfl) (if_pos rfl) rfl (by decide) keeps_of_ne
  | put =>
    refine h.rested hp .awake (w.table.touches_publishPut ..) (fun j e he => ?_) (if_pos rfl)
      (fun j hj => if_neg hj) (fun _ => rfl) rfl rfl
    rcases List.mem_pair.mp he with rfl | rfl <;> trivial
  | putFailed =>
    exact h.ended hp (w.table.touches_endBusySlot ..) (foreign_single fun _ => trivial)
      (if_pos rfl) (fun j hj => if_neg hj) (fun _ => rfl) rfl (by decide)
  | publishWake =>
    exact h.rested hp .awake (w.table.touches_publishWake _) foreign_nil (if_pos rfl)
      (fun j hj => if_neg hj) (fun _ => rfl) rfl rfl
  | dropClaim _ hs =>
    exact h.taken hp .awake hs (w.table.touches_enterBusy _) foreign_nil (fun _ => rfl)
      (if_pos rfl) (fun j hj => if_neg hj) rfl (Or.inr rfl) (List.mem_singleton.mpr rfl)
  | @closeMapped i err _ _ =>
    refine h.quiet_self hp foreign_nil fun j => ?_
    by_cases hj : j = i
    · subst hj
      simp [Pc.claim, AfterClose.closingState, AfterClose.keeper, Keeps]
    · simp [Pc.claim, AfterClose.keeper, Keeps, hj, Ne.symm hj]
  | parkUnmapped =>
    exact h.rested hp .asleep (w.table.touches_settleAsleep _) foreign_nil (if_pos rfl)
      (fun j hj => if_neg hj) (fun _ => rfl) rfl rfl
  | parkZero =>
    have ht := w.table.touches_settleAsleep
    exact h.rested hp .asleep ⟨(ht _).slots, rfl, rfl⟩ foreign_nil (if_pos rfl)
      (fun j hj => if_neg hj) (fun _ => rfl) rfl rfl
  | parkGrace =>
    refine h.rested hp .asleep (w.table.touches_armGrace ..) (fun j e he => ?_) (if_pos rfl)
      (fun j hj => if_neg hj) (fun _ => rfl) rfl rfl
    rcases List.mem_cons.mp he with rfl | he
    · trivial
    · exact foreign_leave j e he
  | swap => exact h.swapped hp
  | abort =>
    refine h.touch hp (w.table.touches_endBusySlot ..) (fun j _ => foreign_nil j) keeps_of_ne ?_
    obtain ⟨_, ph, hmem, hin⟩ := h.meets hp (if_pos rfl)
    rw [List.mem_singleton.mp hmem] at hin
    rw [calls_of_foreign (foreign_nil _), claim_panicked, claim_closeCall]
    exact ⟨rfl, .broken, List.mem_cons_of_mem _ List.mem_cons_self, hin.gone⟩
  | @closeReady i closer ready err =>
    refine h.quiet_touch hp (w.table.touches_closeChan 0 _) rfl rfl foreign_nil fun j => ?_
    by_cases hj : j = i
    · subst hj
      rw [claim_closeReady, claim_closeCall]
      exact ⟨rfl, by dsimp only; decide⟩
    · rw [claim_closeReady_of_ne hj, claim_closeCall_of_ne hj]
      exact Keeps.refl _
  | expireEnforce hs _ _ =>
    refine h.taken hp .asleep hs (w.table.touches_enterBusy _) (foreign_single fun _ => trivial)
      (fun _ => rfl) claim_closeCall (fun j hj => ?_) (closingState_self _ _).symm (Or.inr rfl)
      List.mem_cons_self
    rw [claim_closeCall_of_ne hj]
    exact if_neg fun hi => hj (Option.some.inj hi).symm
  | expireDispose hs _ _ =>
    exact h.taken hp .asleep hs ((w.table.touches_endSlot _).unmap _)
      (foreign_single fun _ => trivial) (fun _ => rfl) (if_pos rfl) (fun j hj => if_neg hj) rfl
      (Or.inl rfl) List.mem_cons_self
  | closeStart =>
    refine h.started hp claim_closeCall claim_closeRun rfl (by dsimp only; decide) fun j hj => ?_
    rw [claim_closeCall_of_ne hj, claim_closeRun_of_ne hj]
    exact Keeps.refl _
  | closed => exact h.closeReturned hp
  | unmapClosed =>
    exact h.ended hp (w.table.touches_unmapLocked _) foreign_nil (if_pos rfl)
      (fun j hj => if_neg hj) (fun _ => rfl) rfl (by decide)
  | closeFinal =>
    exact h.quiet_touch hp (w.table.touches_closeChan 0 _) rfl rfl foreign_leave
      fun _ => trivial
  | takeAll =>
    refine h.quiet hp (fun j => ?_) fun _ => trivial
    show SlotView.mk (w.table.takeAll.slots j).state (w.table.takeAll.slots j).finished
      (j < w.table.nextSlot) (calls j (w.log ++ [])) = _
    rw [List.append_nil]
    unfold Table.takeAll
    dsimp only
    split <;> rfl
  | resetAwake hs =>
    exact h.taken hp .awake hs (w.table.touches_endSlot _) foreign_nil (fun _ => rfl)
      (if_pos rfl) (fun j hj => if_neg hj) rfl (Or.inl rfl) List.mem_cons_self
  | resetAsleep hs =>
    exact h.taken hp .asleep hs (w.table.touches_endSlot _) foreign_nil (fun _ => rfl)
      (if_pos rfl) (fun j hj => if_neg hj) rfl (Or.inl rfl) List.mem_cons_self
  | @resetSlept i rest ok =>
    refine h.returned hp (if_pos rfl) (if_pos rfl) rfl ?_ keeps_of_ne
    cases ok <;> dsimp only <;> decide

/-! ## Whole runs -/

theorem init (grace : ℤ) : OwnersInv (World.init (V := V) grace) where
  unborn := fun _ _ => rfl
  owned :=
    { held := fun _ _ hp => hp.elim
      unique := fun _ _ _ hp => hp.elim
      rests := fun _ _ => .unmade rfl (Nat.not_lt_zero _) rfl }

theorem spawn (h : OwnersInv w) (hpc : ∀ i, pc.claim i = none) : OwnersInv (w.spawn caller pc) := by
  have hnone : ∀ i, ¬ Owns (some (Proc.mk caller pc)) i := fun i hown => hown (hpc i)
  have hnew : ∀ i, ¬ Owns (w.procs w.next) i := by
    intro i hown
    rw [h.unborn w.next (le_refl _)] at hown
    exact hown
  refine ⟨fun q hq => ?_, ?_⟩
  · have hq' : w.next + 1 ≤ q := hq
    exact (update_of_ne (by omega) ..).trans (h.unborn q (by omega))
  · exact h.owned.move (fun r hr => absurd hr (hnone r)) (fun r hr => absurd hr (hnone r))
      (fun r hr => absurd hr (hnew r)) fun _ _ _ => rfl

theorem step {w' : World V} {a : Action V} (h : OwnersInv w) (hs : w.step a = some w') :
    OwnersInv w' := by
  cases World.step_cases hs with
  | openKey => exact h.spawn fun _ => rfl
  | @cancel ctx err _ =>
    refine ⟨h.unborn, ?_⟩
    have hview : (w.cancelled ctx err).view = w.view := by
      funext i
      show SlotView.mk _ _ _ (calls i (w.log ++ [Event.ctxDone ctx])) = _
      rw [calls_of_foreign (foreign_single (e := .ctxDone ctx) (fun _ => trivial) i)]
      rfl
    rw [hview]
    exact h.owned
  | reset => exact h.spawn fun _ => rfl
  | tick => exact ⟨h.unborn, h.owned⟩
  | fire => exact spawn ⟨h.unborn, h.owned⟩ fun _ => rfl
  | run hp hm => exact h.move hp hm

theorem of_run {grace : ℤ} {acts : List (Action V)}
    (hrun : run World.step (World.init grace) acts = some w) : OwnersInv w :=
  run_inv (fun _ _ _ => step) (init grace) hrun

end OwnersInv

/-! ## The slot being created -/

section Fills

variable {env : Env} {t t' : Table V} {pc pc' : Pc V} {evs : List Event} {i : ℕ}

def Pc.fills : Pc V → Option ℕ
  | createCall i | createRun i | publishPut i _ _ => some i
  | _ => none

theorem Pc.claim_of_fills (h : pc.fills = some i) : ∃ phs, pc.claim i = some ⟨.busy, phs⟩ := by
  cases pc with
  | createCall | createRun | publishPut => exact ⟨_, if_pos (Option.some.inj h).symm⟩
  | _ => cases h

theorem Move.fills_back (hm : Move env t pc t' pc' evs) (h : pc'.fills = some i) :
    pc.fills = some i ∨ i = t.nextSlot := by
  cases hm with
  | create => exact .inr (Option.some.inj h).symm
  | createStart | created => exact .inl h
  | @closed _ after _ => cases after <;> cases h
  | _ => cases h

theorem Move.value (hm : Move env t pc t' pc' evs) (hlt : i < t.nextSlot)
    (hno : pc.fills ≠ some i) : (t'.slots i).value = (t.slots i).value := by
  have hslot := hm.slot i
  generalize t'.slots i = s at hslot
  cases hslot with
  | registered he | closer he => exact absurd he hlt.ne
  | put => exact absurd rfl hno
  | _ => rfl

end Fills

end MiddlewareUtils.Reclaim
