import MiddlewareUtils.Reclaim.Opens
import MiddlewareUtils.Proofs.ReclaimMapping
import MiddlewareUtils.Proofs.ReclaimReady

/-!
# Whose error an Open returns

An Open parked on a busy slot reads `createErr` once `ready` is closed, and
returns what it finds there. The read is a critical section of its own, so
the slot may have moved on: an Open that waited for a Sleep can be overtaken
by another Open that wakes the value, and when that Wake panics before the
first Open has read, the first Open is handed an error of a transition it
never waited for (`overtakenWaiter`).

A create has no such gap. It is the first transition of its slot, so
whoever waits for the slot waits for that create. A Wake is not, and the
condition is about its failure alone: when the panic of a Wake is recorded,
everyone who still waits for the slot waits for that Wake.

`FaultInv` says what the notes of `Opens` mean, `WaitInv` who waits for
what. Both hold in every run without Reset.
-/

namespace MiddlewareUtils.Reclaim

open Lib Function

variable {V : Type}

def OpenError.isContext : OpenError → Bool
  | context _ => true
  | _ => false

def Pc.awaits : Pc V → Option ℕ
  | parked i _ | createErrOf i => some i
  | _ => none

def AfterClose.err : AfterClose → Option OpenError
  | unmap _ err | finish err => err
  | reset _ => none

def Pc.carried : Pc V → Option OpenError
  | createFailed _ err => some err
  | release _ err | claimDrop _ err | dropParked _ _ err | sleepCall _ err | sleepRun _ err
  | slept _ err | panicked _ _ err | closeReady _ _ _ err | claimExpire _ err
  | unmapClosed _ err | closeFinal _ err => err
  | closeCall _ after | closeRun _ after => after.err
  | _ => none

def Pc.puts : Pc V → Option ℕ
  | createFailed i _ => some i
  | pc => pc.fills

/-! ## Steps -/

section Steps

variable {env : Env} {t t' : Table V} {pc pc' : Pc V} {evs : List Event} {i : ℕ} {hk : Hook}
  {e : OpenError}

theorem Pc.claim_of_fails (h : pc.fails = some (i, hk, e)) :
    ∃ phs, pc.claim i = some ⟨.busy, phs⟩ := by
  cases pc with
  | createFailed =>
    injection h with h
    injection h with hi
    exact ⟨_, if_pos hi.symm⟩
  | panicked j createErr =>
    cases createErr with
    | none => cases h
    | some err =>
      injection h with h
      injection h with hi
      exact ⟨_, if_pos hi.symm⟩
  | _ => cases h

theorem Pc.keepsBusy_of_puts (h : pc.puts = some i) : pc.keepsBusy = some i := by
  cases pc with
  | createCall | createRun | publishPut | createFailed => exact h
  | _ => cases h

theorem Move.slot_kept (hm : Move env t pc t' pc' evs) (hno : ¬ pc.ofReset) (hi : i < t.nextSlot)
    (hfree : ∀ phs, pc.claim i ≠ some ⟨.busy, phs⟩)
    (hrest : ∀ st ph, Resting st ph → (t.slots i).state ≠ st) :
    ∃ n, t'.slots i = { t.slots i with holders := n } := by
  have hslot := hm.slot i
  generalize t'.slots i = s at hslot
  cases hslot with
  | same => exact ⟨_, rfl⟩
  | released => exact ⟨_, rfl⟩
  | registered he | closer he => exact absurd he hi.ne
  | held hs | claimed hs => exact absurd hs (hrest _ _ .awake)
  | reclaimed hs | enforced hs | disposed hs => exact absurd hs (hrest _ _ .asleep)
  | put | failed | woken | settled | armed | broke | unmapped =>
    exact absurd (if_pos rfl) (hfree _)
  | cleared | reset => exact absurd trivial hno

theorem Move.createErr_back (hm : Move env t pc t' pc' evs)
    (h : (t'.slots i).createErr = some e) :
    (t.slots i).createErr = some e ∨ (∃ hk, pc.fails = some (i, hk, e)) ∧
      (t'.slots i).state = .gone ∧ (t'.slots i).ready = (t.slots i).ready := by
  have hslot := hm.slot i
  generalize hs : t'.slots i = s at hslot h
  cases hslot with
  | registered | closer => cases h
  | failed =>
    obtain rfl := Option.some.inj h
    cases hm
    exact .inr ⟨⟨_, rfl⟩, rfl, rfl⟩
  | @broke createErr =>
    obtain rfl : createErr = some e := h
    cases hm <;> exact .inr ⟨⟨_, rfl⟩, rfl, rfl⟩
  | _ => exact .inl h

theorem Move.fails_ends (hm : Move env t pc t' pc' evs) (h : pc.fails = some (i, hk, e))
    (hi : i < t.nextSlot) : (t'.slots i).createErr = some e := by
  have hends : ∀ {j : ℕ} {hk' : Hook} {e' : OpenError}, some (j, hk', e') = some (i, hk, e) →
      j = i ∧ e' = e := by
    intro j hk' e' he
    injection he with he
    injection he with hj he
    injection he with _ he
    exact ⟨hj, he⟩
  cases hm with
  | putFailed =>
    obtain ⟨rfl, rfl⟩ := hends h
    rw [(t.touches_endBusySlot ..).slots, update_self]
  | @swap j createErr =>
    cases createErr with
    | none => cases h
    | some err =>
      obtain ⟨rfl, rfl⟩ := hends h
      rw [show (t.installCloser j (some err)).slots j = (t.endWith j (some err)).slots j from
        update_of_ne hi.ne .., (t.touches_endWith ..).slots, update_self]
  | @abort j createErr =>
    cases createErr with
    | none => cases h
    | some err =>
      obtain ⟨rfl, rfl⟩ := hends h
      rw [(t.touches_endBusySlot ..).slots, update_self]
  | _ => cases h

theorem Move.carried_back (hm : Move env t pc t' pc' evs) (h : pc'.carried = some e) :
    (∃ i hk, pc'.fails = some (i, hk, e)) ∨ e.isContext = true ∨ pc.carried = some e := by
  cases hm with
  | createFail =>
    obtain rfl := Option.some.inj h
    exact .inl ⟨_, _, rfl⟩
  | wakePanic =>
    obtain rfl := Option.some.inj h
    exact .inl ⟨_, _, rfl⟩
  | refuse =>
    obtain rfl := Option.some.inj h
    exact .inr (Or.inl rfl)
  | @closed _ after _ =>
    cases after with
    | unmap => exact .inr (Or.inr h)
    | finish | reset => cases h
  | _ => first | exact .inr (Or.inr h) | cases h

theorem mem_leave {p q : ℕ} {err : Option OpenError} (h : .failed q e ∈ leave p err) :
    q = p ∧ err = some e := by
  cases err with
  | none => cases h
  | some e' =>
    injection List.mem_singleton.mp h with hq he
    exact ⟨hq, congrArg some he.symm⟩

theorem Move.failed_back {q : ℕ} (hm : Move env t pc t' pc' evs) (h : .failed q e ∈ evs) :
    q = env.p ∧ pc' = .finished ∧
      (pc.carried = some e ∨ ∃ i, pc = .createErrOf i ∧ (t.slots i).createErr = some e) := by
  cases hm with
  | replay he =>
    injection List.mem_singleton.mp h with hq hee
    exact ⟨hq, rfl, Or.inr ⟨_, rfl, hee ▸ he⟩⟩
  | putFailed =>
    injection List.mem_singleton.mp h with hq hee
    exact ⟨hq, rfl, Or.inl (congrArg some hee.symm)⟩
  | dropStop | expireSkip | closeFinal =>
    obtain ⟨hq, he⟩ := mem_leave h
    exact ⟨hq, rfl, Or.inl he⟩
  | parkGrace =>
    obtain ⟨hq, he⟩ := mem_leave ((List.mem_cons.mp h).resolve_left nofun)
    exact ⟨hq, rfl, Or.inl he⟩
  | @closed _ after _ =>
    have hleft := (List.mem_cons.mp h).resolve_left nofun
    cases after with
    | unmap | reset => cases hleft
    | finish err =>
      obtain ⟨hq, he⟩ := mem_leave hleft
      exact ⟨hq, rfl, Or.inl he⟩
  | _ => simp at h

theorem Move.awaits_back (hm : Move env t pc t' pc' evs) (h : pc'.awaits = some i) :
    (pc = .lookup ∧ pc' = .parked i (t.slots i).ready ∧ (t.slots i).state = .busy ∧
      ∃ key, t.items key = some i) ∨
    ∃ ready, pc = .parked i ready ∧ pc' = .createErrOf i ∧ t.chans ready ≠ 0 := by
  cases hm with
  | park hc hkey hs =>
    obtain rfl := Option.some.inj h
    exact .inl ⟨rfl, rfl, hs, _, hkey⟩
  | unpark hready =>
    obtain rfl := Option.some.inj h
    exact .inr ⟨_, rfl, rfl, hready⟩
  | @closed _ after _ => cases after <;> cases h
  | _ => cases h

theorem Pc.puts_of_awaits (h : pc.awaits = some i) {j : ℕ} : pc.puts ≠ some j := by
  cases pc with
  | parked | createErrOf => exact nofun
  | _ => cases h

theorem Move.puts_same (hm : Move env t pc t' pc' evs) (h : pc.puts = some i)
    (h' : pc'.puts = some i) : t' = t := by
  cases hm with
  | createStart | created | createFail => rfl
  | put | putFailed => cases h'
  | _ => cases h

theorem Move.puts_back (hm : Move env t pc t' pc' evs) (h : pc'.puts = some i) :
    pc.puts = some i ∨ i = t.nextSlot := by
  cases hm with
  | create => exact .inr (Option.some.inj h).symm
  | createStart | created | createFail => exact .inl h
  | @closed _ after _ => cases after <;> cases h
  | _ => cases h

end Steps

/-! ## Steps that run no process -/

structure World.Quiet (w w' : World V) : Prop where
  slots : w'.table.slots = w.table.slots
  items : w'.table.items = w.table.items
  chans : w'.table.chans = w.table.chans
  nextSlot : w'.table.nextSlot = w.table.nextSlot
  log : ∀ e, (∀ c, e ≠ .ctxDone c) → (e ∈ w'.log ↔ e ∈ w.log)
  kept : ∀ q x, w.procs q = some x → w'.procs q = some x
  back : ∀ q x, w'.procs q = some x → w.procs q = some x ∨
    x.pc = .lookup ∨ x.pc = .takeAll ∨ ∃ i, x.pc = .claimExpire i none

theorem OwnersInv.quiet_step {w w' : World V} {a : Action V} (h : OwnersInv w)
    (hs : w.step a = some w') (ha : ∀ p inp, a ≠ .run p inp) : w.Quiet w' := by
  cases World.step_cases hs with
  | openKey =>
    exact ⟨rfl, rfl, rfl, rfl, fun _ _ => Iff.rfl, fun _ _ hq => h.procs_spawn hq, fun q x hq =>
      (update_eq_some hq).symm.imp And.right fun he => Or.inl (congrArg Proc.pc he.2)⟩
  | cancel =>
    refine ⟨rfl, rfl, rfl, rfl, fun e he => ?_, fun _ _ => id, fun _ _ => Or.inl⟩
    exact List.mem_append.trans (or_iff_left fun h => he _ (List.mem_singleton.mp h))
  | reset =>
    exact ⟨rfl, rfl, rfl, rfl, fun _ _ => Iff.rfl, fun _ _ hq => h.procs_spawn hq, fun q x hq =>
      (update_eq_some hq).symm.imp And.right fun he => Or.inr (Or.inl (congrArg Proc.pc he.2))⟩
  | tick => exact ⟨rfl, rfl, rfl, rfl, fun _ _ => Iff.rfl, fun _ _ => id, fun _ _ => Or.inl⟩
  | fire =>
    exact ⟨rfl, rfl, rfl, rfl, fun _ _ => Iff.rfl, fun _ _ hq => h.procs_spawn hq, fun q x hq =>
      (update_eq_some hq).symm.imp And.right fun he =>
        Or.inr (Or.inr ⟨_, congrArg Proc.pc he.2⟩)⟩
  | run => exact absurd rfl (ha _ _)

theorem World.Quiet.proc {w w' : World V} (h : w.Quiet w') {q : ℕ} {x : Proc V} {α : Type}
    {f : Pc V → Option α} {a : α} (hf : f .lookup = none ∧ f .takeAll = none ∧
      ∀ i, f (.claimExpire i none) = none) (hq : w'.procs q = some x) (hx : f x.pc = some a) :
    w.procs q = some x := by
  rcases h.back q x hq with hq | hpc | hpc | ⟨i, hpc⟩
  · exact hq
  · rw [hpc, hf.1] at hx
    cases hx
  · rw [hpc, hf.2.1] at hx
    cases hx
  · rw [hpc, hf.2.2] at hx
    cases hx

/-! ## Faults -/

structure FaultInv (s : Opens V) : Prop where
  mapped : MappedInv s.world
  ready : ReadyInv s.world
  failing : ∀ p q i hk e, s.world.procs p = some q → q.pc.fails = some (i, hk, e) →
    s.faults i = some ⟨p, hk, (s.world.table.slots i).ready, e⟩
  stored : ∀ i e, (s.world.table.slots i).createErr = some e →
    (s.world.table.slots i).state = .gone ∧
      ∃ p hk, s.faults i = some ⟨p, hk, (s.world.table.slots i).ready, e⟩
  /-- A fault is stored in its slot, or its runner is about to store it. -/
  known : ∀ i f, s.faults i = some f → i < s.world.table.nextSlot ∧
    ((s.world.table.slots i).createErr = some f.err ∨
      ∃ q, s.world.procs f.runner = some q ∧ q.pc.fails = some (i, f.hook, f.err))
  carried : ∀ p q e, s.world.procs p = some q → q.pc.carried = some e →
    e.isContext = true ∨ ∃ i f, s.faults i = some f ∧ f.err = e ∧ f.runner = p
  done : ∀ p e, .failed p e ∈ s.world.log → ∃ c, s.world.procs p = some ⟨c, .finished⟩

namespace FaultInv

variable {s : Opens V} {p : ℕ} {caller : Caller} {pc pc' : Pc V} {t : Table V}
  {evs : List Event} {i : ℕ} {hk : Hook} {e : OpenError} {f : Fault}

section Step

variable (h : FaultInv s) (hp : s.world.procs p = some ⟨caller, pc⟩)
  (hm : Move (s.world.env p caller) s.world.table pc t pc' evs)
include h hp hm

theorem gone_kept (hi : i < s.world.table.nextSlot) (hg : (s.world.table.slots i).state = .gone) :
    ∃ n, t.slots i = { s.world.table.slots i with holders := n } := by
  refine hm.slot_kept (h.mapped.noReset p _ hp) hi (fun phs hc => ?_) fun st ph hr hst => ?_
  · have hbusy : (s.world.table.slots i).state = .busy := (h.mapped.owners.meets hp hc).1
    rw [hg] at hbusy
    cases hbusy
  · rw [hg] at hst
    subst hst
    cases hr

theorem owned_kept {q : ℕ} {x : Proc V} {c : Claim} (hq : s.world.procs q = some x)
    (hc : x.pc.claim i = some c) (hqp : q ≠ p) :
    ∃ n, t.slots i = { s.world.table.slots i with holders := n } := by
  obtain ⟨_, _, _, hin⟩ := h.mapped.owners.meets hq hc
  exact hm.slot_kept (h.mapped.noReset p _ hp) hin.made
    (fun phs hc' => hqp (h.mapped.owners.claim_unique hq hp hc hc'))
    fun st ph hr => h.mapped.owners.not_resting hq hc hr

theorem stored_kept (he : (s.world.table.slots i).createErr = some e) :
    ∃ n, t.slots i = { s.world.table.slots i with holders := n } := by
  obtain ⟨hg, _, _, hf⟩ := h.stored i e he
  exact h.gone_kept hp hm (h.known i _ hf).1 hg

theorem fault_kept (ho : OwnersInv (s.world.moved p caller t pc' evs)) (hf : s.faults i = some f) :
    s.noteFault p t pc' i = some f := by
  rw [Opens.noteFault_of_ne, hf]
  intro hk err hfail
  obtain ⟨phs, hc⟩ := Pc.claim_of_fails hfail
  have hbusy : (t.slots i).state = .busy := (ho.meets World.procs_moved_self hc).1
  obtain ⟨hlt, he | ⟨q, hq, hqf⟩⟩ := h.known i f hf
  · obtain ⟨n, hn⟩ := h.stored_kept hp hm he
    have hg := (h.stored i _ he).1
    rw [hn] at hbusy
    rw [show (s.world.table.slots i).state = .busy from hbusy] at hg
    cases hg
  · by_cases hrun : f.runner = p
    · -- The runner has just recorded it.
      rw [hrun, hp] at hq
      obtain rfl := Option.some.inj hq
      cases hm <;> first | cases hqf | cases hfail
    · obtain ⟨_, hc'⟩ := Pc.claim_of_fails hqf
      exact hrun (ho.claim_unique ((World.procs_moved_of_ne hrun).trans hq)
        World.procs_moved_self hc' hc)

theorem failing_move (ho : OwnersInv (s.world.moved p caller t pc' evs)) {q : ℕ} {x : Proc V}
    (hq : (s.world.moved p caller t pc' evs).procs q = some x) (hx : x.pc.fails = some (i, hk, e)) :
    s.noteFault p t pc' i = some ⟨q, hk, (t.slots i).ready, e⟩ := by
  rcases World.procs_moved_back hq with ⟨rfl, rfl⟩ | ⟨hqp, hq⟩
  · exact Opens.noteFault_self hx
  · obtain ⟨phs, hc⟩ := Pc.claim_of_fails hx
    obtain ⟨n, hn⟩ := h.owned_kept hp hm hq hc hqp
    rw [hn]
    exact h.fault_kept hp hm ho (h.failing q x i hk e hq hx)

theorem stored_move (ho : OwnersInv (s.world.moved p caller t pc' evs))
    (he : (t.slots i).createErr = some e) :
    (t.slots i).state = .gone ∧
      ∃ q hk, s.noteFault p t pc' i = some ⟨q, hk, (t.slots i).ready, e⟩ := by
  rcases hm.createErr_back he with hold | ⟨⟨hk, hfails⟩, hg, hready⟩
  · obtain ⟨hg, q, hk, hf⟩ := h.stored i e hold
    obtain ⟨n, hn⟩ := h.stored_kept hp hm hold
    rw [hn]
    exact ⟨hg, q, hk, h.fault_kept hp hm ho hf⟩
  · rw [hready]
    exact ⟨hg, p, hk, h.fault_kept hp hm ho (h.failing p _ i hk e hp hfails)⟩

theorem known_move (ho : OwnersInv (s.world.moved p caller t pc' evs))
    (hf : s.noteFault p t pc' i = some f) :
    i < t.nextSlot ∧ ((t.slots i).createErr = some f.err ∨
      ∃ q, (s.world.moved p caller t pc' evs).procs f.runner = some q ∧
        q.pc.fails = some (i, f.hook, f.err)) := by
  by_cases hnew : ∃ hk err, pc'.fails = some (i, hk, err)
  · obtain ⟨hk, err, hfail⟩ := hnew
    rw [Opens.noteFault_self hfail] at hf
    obtain rfl := Option.some.inj hf
    obtain ⟨_, hc⟩ := Pc.claim_of_fails hfail
    obtain ⟨_, _, _, hin⟩ := ho.meets World.procs_moved_self hc
    exact ⟨hin.made, Or.inr ⟨_, World.procs_moved_self, hfail⟩⟩
  · rw [Opens.noteFault_of_ne fun hk err he => hnew ⟨hk, err, he⟩] at hf
    obtain ⟨hlt, he | ⟨q, hq, hqf⟩⟩ := h.known i f hf
    · obtain ⟨n, hn⟩ := h.stored_kept hp hm he
      rw [hn]
      exact ⟨hlt.trans_le hm.nextSlot_le, Or.inl he⟩
    · refine ⟨hlt.trans_le hm.nextSlot_le, ?_⟩
      by_cases hrun : f.runner = p
      · rw [hrun, hp] at hq
        obtain rfl := Option.some.inj hq
        exact .inl (hm.fails_ends hqf hlt)
      · exact .inr ⟨q, (World.procs_moved_of_ne hrun).trans hq, hqf⟩

theorem carried_move (ho : OwnersInv (s.world.moved p caller t pc' evs)) {q : ℕ} {x : Proc V}
    (hq : (s.world.moved p caller t pc' evs).procs q = some x) (hx : x.pc.carried = some e) :
    e.isContext = true ∨ ∃ i f, s.noteFault p t pc' i = some f ∧ f.err = e ∧ f.runner = q := by
  have hold : ∀ {y : Proc V}, s.world.procs q = some y → y.pc.carried = some e →
      e.isContext = true ∨
        ∃ i f, s.noteFault p t pc' i = some f ∧ f.err = e ∧ f.runner = q := by
    intro y hy hyc
    refine (h.carried q y e hy hyc).imp id ?_
    rintro ⟨i, f, hf, herr, hrun⟩
    exact ⟨i, f, h.fault_kept hp hm ho hf, herr, hrun⟩
  rcases World.procs_moved_back hq with ⟨rfl, rfl⟩ | ⟨_, hq⟩
  · rcases hm.carried_back hx with ⟨i, hk, hfail⟩ | hctx | hcar
    · exact .inr ⟨i, _, Opens.noteFault_self hfail, rfl, rfl⟩
    · exact .inl hctx
    · exact hold hp hcar
  · exact hold hq hx

theorem done_move {q : ℕ} (he : .failed q e ∈ s.world.log ++ evs) :
    ∃ c, (s.world.moved p caller t pc' evs).procs q = some ⟨c, .finished⟩ := by
  rcases List.mem_append.mp he with he | he
  · obtain ⟨c, hq⟩ := h.done q e he
    refine ⟨c, (World.procs_moved_of_ne ?_).trans hq⟩
    rintro rfl
    rw [hp] at hq
    cases hq
    cases hm
  · obtain ⟨rfl, rfl, _⟩ := hm.failed_back he
    exact ⟨caller, World.procs_moved_self⟩

end Step

theorem init (grace : ℤ) : FaultInv (Opens.init (V := V) grace) where
  mapped := .init grace
  ready := .init grace
  failing := fun _ _ _ _ _ hp => absurd hp World.procs_init
  stored := nofun
  known := nofun
  carried := fun _ _ _ hp => absurd hp World.procs_init
  done := nofun

theorem quiet (h : FaultInv s) {w : World V} (hmap : MappedInv w) (hready : ReadyInv w)
    (hq : s.world.Quiet w) : FaultInv { s with world := w } := by
  refine ⟨hmap, hready, fun q x i hk e hx hf => ?_, fun i e he => ?_, fun i f hf => ?_,
    fun q x e hx hc => ?_, fun q e he => ?_⟩
  · show s.faults i = some ⟨q, hk, (w.table.slots i).ready, e⟩
    rw [hq.slots]
    exact h.failing q x i hk e (hq.proc ⟨rfl, rfl, fun _ => rfl⟩ hx hf) hf
  · show (w.table.slots i).state = _ ∧ ∃ q hk, s.faults i = some ⟨q, hk, (w.table.slots i).ready, e⟩
    rw [hq.slots]
    exact h.stored i e (hq.slots ▸ he)
  · show i < w.table.nextSlot ∧ ((w.table.slots i).createErr = _ ∨ _)
    rw [hq.slots, hq.nextSlot]
    obtain ⟨hlt, hg⟩ := h.known i f hf
    exact ⟨hlt, hg.imp id fun ⟨y, hy, hyf⟩ => ⟨y, hq.kept _ y hy, hyf⟩⟩
  · exact h.carried q x e (hq.proc ⟨rfl, rfl, fun _ => rfl⟩ hx hc) hc
  · obtain ⟨c, hc⟩ := h.done q e ((hq.log (.failed q e) nofun).mp he)
    exact ⟨c, hq.kept q _ hc⟩

theorem step {s' : Opens V} {a : Action V} (h : FaultInv s) (ha : a.isReset = false)
    (hs : s.step a = some s') : FaultInv s' := by
  cases Opens.step_cases hs with
  | quiet hw hrun =>
    exact h.quiet (h.mapped.step ha hw) (h.ready.step hw) (h.mapped.owners.quiet_step hw hrun)
  | run hw hp hm =>
    have hmap := h.mapped.step ha hw
    have ho := hmap.owners
    exact ⟨hmap, h.ready.step hw, fun _ _ _ _ _ => h.failing_move hp hm ho,
      fun _ _ => h.stored_move hp hm ho, fun _ _ => h.known_move hp hm ho,
      fun _ _ _ => h.carried_move hp hm ho, fun _ _ => h.done_move hp hm⟩

end FaultInv

/-! ## Waiting -/

structure WaitInv (s : Opens V) : Prop where
  faults : FaultInv s
  waits : ∀ p q i, s.world.procs p = some q → q.pc.awaits = some i →
    i < s.world.table.nextSlot ∧
      ∃ r, s.waited p = some (i, r) ∧ ∀ r', q.pc = .parked i r' → r' = r
  /-- Whoever waits for a slot that is being created waits for the create. -/
  creating : ∀ p q i, s.world.procs p = some q → q.pc.puts = some i →
    ∀ p' q', s.world.procs p' = some q' → q'.pc.awaits = some i →
      q'.pc = .parked i (s.world.table.slots i).ready

namespace WaitInv

variable {s : Opens V} {p : ℕ} {caller : Caller} {pc pc' : Pc V} {t : Table V}
  {evs : List Event} {i : ℕ} {e : OpenError}

section Step

variable (h : WaitInv s) (hp : s.world.procs p = some ⟨caller, pc⟩)
  (hm : Move (s.world.env p caller) s.world.table pc t pc' evs)
include h hp hm

theorem waits_move {q : ℕ} {x : Proc V} (hq : (s.world.moved p caller t pc' evs).procs q = some x)
    (hx : x.pc.awaits = some i) :
    i < t.nextSlot ∧ ∃ r, s.noteWait p pc' q = some (i, r) ∧
      ∀ r', x.pc = .parked i r' → r' = r := by
  rcases World.procs_moved_back hq with ⟨rfl, rfl⟩ | ⟨hqp, hq⟩
  · rcases hm.awaits_back hx with ⟨_, rfl, _, key, hkey⟩ | ⟨r, rfl, rfl, _⟩
    · refine ⟨(h.faults.mapped.mapping.keyed key i hkey).1.trans_le hm.nextSlot_le, _,
        update_self .., fun r' hr' => ?_⟩
      injection hr' with _ hr'
      exact hr'.symm
    · obtain ⟨hlt, r, hw, _⟩ := h.waits q _ i hp rfl
      exact ⟨hlt.trans_le hm.nextSlot_le, r, hw, nofun⟩
  · rw [Opens.noteWait_of_ne hqp]
    obtain ⟨hlt, hw⟩ := h.waits q x i hq hx
    exact ⟨hlt.trans_le hm.nextSlot_le, hw⟩

theorem creating_move {q q' : ℕ} {x x' : Proc V}
    (hq : (s.world.moved p caller t pc' evs).procs q = some x) (hx : x.pc.puts = some i)
    (hq' : (s.world.moved p caller t pc' evs).procs q' = some x') (hx' : x'.pc.awaits = some i) :
    x'.pc = .parked i (t.slots i).ready := by
  rcases World.procs_moved_back hq with ⟨rfl, rfl⟩ | ⟨hqp, hold⟩
  · rcases World.procs_moved_back hq' with ⟨_, rfl⟩ | ⟨_, hq'⟩
    · exact absurd hx (Pc.puts_of_awaits hx')
    · rcases hm.puts_back hx with hold | rfl
      · rw [hm.puts_same hold hx]
        exact h.creating q _ i hp hold q' x' hq' hx'
      · exact absurd (h.waits q' x' _ hq' hx').1 (lt_irrefl _)
  · have hbusy := Pc.keepsBusy_of_puts hx
    obtain ⟨_, hc⟩ := Pc.claim_of_keepsBusy hbusy
    obtain ⟨n, hn⟩ := h.faults.owned_kept hp hm hold hc hqp
    rw [hn]
    show x'.pc = .parked i (s.world.table.slots i).ready
    rcases World.procs_moved_back hq' with ⟨rfl, rfl⟩ | ⟨_, hq'⟩
    · rcases hm.awaits_back hx' with ⟨_, rfl, _⟩ | ⟨r, rfl, _, hopen⟩
      · rfl
      · -- The channel is still its creator's to close.
        injection h.creating q x i hold hx q' _ hp rfl with _ hr
        have howes : s.world.Owes q r := ⟨x, hold, Or.inl ⟨i, hbusy, hr.symm⟩⟩
        exact absurd (h.faults.ready.owes_open howes).2 hopen
    · exact h.creating q x i hold hx q' x' hq' hx'

end Step

theorem init (grace : ℤ) : WaitInv (Opens.init (V := V) grace) where
  faults := .init grace
  waits := fun _ _ _ hp => absurd hp World.procs_init
  creating := fun _ _ _ hp => absurd hp World.procs_init

theorem step {s' : Opens V} {a : Action V} (h : WaitInv s) (ha : a.isReset = false)
    (hs : s.step a = some s') : WaitInv s' := by
  have hf := h.faults.step ha hs
  cases Opens.step_cases hs with
  | quiet hw hrun =>
    have hq := h.faults.mapped.owners.quiet_step hw hrun
    refine ⟨hf, fun q x i hx hi => ?_, fun q x i hx hi q' x' hx' hi' => ?_⟩
    · rw [show _ = s.world.table.nextSlot from hq.nextSlot]
      exact h.waits q x i (hq.proc ⟨rfl, rfl, fun _ => rfl⟩ hx hi) hi
    · rw [show _ = s.world.table.slots from hq.slots]
      exact h.creating q x i (hq.proc ⟨rfl, rfl, fun _ => rfl⟩ hx hi) hi q' x'
        (hq.proc ⟨rfl, rfl, fun _ => rfl⟩ hx' hi') hi'
  | run hw hp hm =>
    exact ⟨hf, fun _ _ _ => h.waits_move hp hm,
      fun _ _ _ hq hx _ _ hq' hx' => h.creating_move hp hm hq hx hq' hx'⟩

end WaitInv

/-! ## Replay -/

/-- The slot on which this step records the panic of its Wake. -/
def World.wakeFails (w : World V) : Action V → Option ℕ
  | .run p _ =>
    match w.procs p with
    | some ⟨_, .panicked i (some _) _⟩ => some i
    | _ => none
  | _ => none

/-- Process `q` still waits for an earlier transition of slot `i`. -/
def World.lagsBehind (w : World V) (i q : ℕ) : Bool :=
  match w.procs q with
  | some ⟨_, .createErrOf j⟩ => j == i
  | some ⟨_, .parked j ready⟩ => j == i && ready != (w.table.slots i).ready
  | _ => false

/-- No panic of a Wake is recorded while an Open that waited for something
else has not read `createErr`. -/
def FailsInTime (w : World V) (a : Action V) : Prop :=
  ∀ i ∈ w.wakeFails a, ∀ q < w.next, w.lagsBehind i q = false

instance (w : World V) (a : Action V) : Decidable (FailsInTime w a) := by
  unfold FailsInTime
  infer_instance

/-- Whose error an Open returns. -/
structure ErrorReplay (s : Opens V) : Prop where
  /-- An Open that failed, and not for its context, ran the create or Wake
  that failed or parked on the `ready` of that very transition. -/
  answered : ∀ p e, .failed p e ∈ s.world.log → e.isContext = false →
    ∃ i f, s.faults i = some f ∧ f.err = e ∧ (f.runner = p ∨ s.waited p = some (i, f.ready))
  /-- An Open that waited for any other transition looks the key up again. -/
  again : ∀ p caller i r inp, s.world.procs p = some ⟨caller, .createErrOf i⟩ →
    s.waited p = some (i, r) → (∀ f, s.faults i = some f → f.ready ≠ r) →
    advance (s.world.env p caller) s.world.table inp (.createErrOf i) =
      some (s.world.table, .lookup, [])

structure ReplayInv (s : Opens V) : Prop where
  waits : WaitInv s
  settled : ∀ p q i r e, s.world.procs p = some q → q.pc.awaits = some i →
    s.waited p = some (i, r) → (s.world.table.slots i).createErr = some e →
      r = (s.world.table.slots i).ready
  answered : ∀ p e, .failed p e ∈ s.world.log → e.isContext = false →
    ∃ i f, s.faults i = some f ∧ f.err = e ∧ (f.runner = p ∨ s.waited p = some (i, f.ready))

namespace ReplayInv

variable {s : Opens V} {p : ℕ} {caller : Caller} {pc pc' : Pc V} {t : Table V}
  {evs : List Event} {i : ℕ} {hk : Hook} {e : OpenError}

theorem waits_for_it (h : ReplayInv s) {inp : Input V} (hap : FailsInTime s.world (.run p inp))
    (hp : s.world.procs p = some ⟨caller, pc⟩) (hf : pc.fails = some (i, hk, e)) {q : ℕ}
    {x : Proc V} (hq : s.world.procs q = some x) (hx : x.pc.awaits = some i) :
    x.pc = .parked i (s.world.table.slots i).ready := by
  cases pc with
  | createFailed j err =>
    injection hf with hf
    injection hf with hj
    subst hj
    exact h.waits.creating p _ j hp rfl q x hq hx
  | panicked j createErr err =>
    cases createErr with
    | none => cases hf
    | some e' =>
      injection hf with hf
      injection hf with hj
      subst hj
      have hlt : q < s.world.next := by
        by_contra hge
        rw [h.waits.faults.mapped.owners.unborn q (Nat.not_lt.mp hge)] at hq
        cases hq
      have hwf : s.world.wakeFails (.run p inp) = some j := by
        simp only [World.wakeFails, hp]
      have hnot := hap j hwf q hlt
      obtain ⟨c, xpc⟩ := x
      cases xpc with
      | createErrOf k =>
        obtain rfl := Option.some.inj hx
        simp [World.lagsBehind, hq] at hnot
      | parked k r =>
        obtain rfl := Option.some.inj hx
        simp only [World.lagsBehind, hq, beq_self_eq_true, Bool.true_and,
          bne_eq_false_iff_eq] at hnot
        rw [hnot]
      | _ => cases hx
  | _ => cases hf

theorem settled_move (h : ReplayInv s) {inp : Input V} (hap : FailsInTime s.world (.run p inp))
    (hp : s.world.procs p = some ⟨caller, pc⟩)
    (hm : Move (s.world.env p caller) s.world.table pc t pc' evs) {q r : ℕ} {x : Proc V}
    (hq : (s.world.moved p caller t pc' evs).procs q = some x) (hx : x.pc.awaits = some i)
    (hw : s.noteWait p pc' q = some (i, r)) (he : (t.slots i).createErr = some e) :
    r = (t.slots i).ready := by
  have hfaults := h.waits.faults
  rcases hm.createErr_back he with hold | ⟨⟨hk, hfails⟩, _, hready⟩
  · have hg := (hfaults.stored i e hold).1
    obtain ⟨n, hn⟩ := hfaults.stored_kept hp hm hold
    rw [hn]
    rcases World.procs_moved_back hq with ⟨rfl, rfl⟩ | ⟨hqp, hq⟩
    · rcases hm.awaits_back hx with ⟨_, _, hbusy, _⟩ | ⟨_, rfl, rfl, _⟩
      · rw [hg] at hbusy
        cases hbusy
      · exact h.settled q _ i r e hp rfl hw hold
    · rw [Opens.noteWait_of_ne hqp] at hw
      exact h.settled q x i r e hq hx hw hold
  · rw [hready]
    rcases World.procs_moved_back hq with ⟨rfl, rfl⟩ | ⟨hqp, hq⟩
    · rcases hm.awaits_back hx with ⟨rfl, _⟩ | ⟨_, rfl, _⟩ <;> cases hfails
    · rw [Opens.noteWait_of_ne hqp] at hw
      obtain ⟨_, r', hw', hparked⟩ := h.waits.waits q x i hq hx
      rw [hw] at hw'
      obtain rfl : r = r' := congrArg Prod.snd (Option.some.inj hw')
      exact (hparked _ (h.waits_for_it hap hp hfails hq hx)).symm

theorem answered_move (h : ReplayInv s) (hp : s.world.procs p = some ⟨caller, pc⟩)
    (hm : Move (s.world.env p caller) s.world.table pc t pc' evs)
    (ho : OwnersInv (s.world.moved p caller t pc' evs)) {q : ℕ}
    (he : .failed q e ∈ s.world.log ++ evs) (hctx : e.isContext = false) :
    ∃ i f, s.noteFault p t pc' i = some f ∧ f.err = e ∧
      (f.runner = q ∨ s.noteWait p pc' q = some (i, f.ready)) := by
  have hfaults := h.waits.faults
  rcases List.mem_append.mp he with he | he
  · have hqp : q ≠ p := by
      rintro rfl
      obtain ⟨c, hq⟩ := hfaults.done q e he
      rw [hp] at hq
      cases hq
      cases hm
    obtain ⟨i, f, hf, herr, hwho⟩ := h.answered q e he hctx
    rw [Opens.noteWait_of_ne hqp]
    exact ⟨i, f, hfaults.fault_kept hp hm ho hf, herr, hwho⟩
  · obtain ⟨rfl, rfl, hcar | ⟨i, rfl, hstored⟩⟩ := hm.failed_back he
    · rcases hfaults.carried _ _ e hp hcar with hc | ⟨i, f, hf, herr, hrun⟩
      · rw [hctx] at hc
        cases hc
      · exact ⟨i, f, hfaults.fault_kept hp hm ho hf, herr, Or.inl hrun⟩
    · obtain ⟨_, _, _, hf⟩ := hfaults.stored i e hstored
      obtain ⟨_, r, hw, _⟩ := h.waits.waits _ _ i hp rfl
      have hr := h.settled _ _ i r e hp rfl hw hstored
      subst hr
      exact ⟨i, _, hfaults.fault_kept hp hm ho hf, rfl, Or.inr hw⟩

theorem init (grace : ℤ) : ReplayInv (Opens.init (V := V) grace) where
  waits := .init grace
  settled := fun _ _ _ _ _ hp => absurd hp World.procs_init
  answered := nofun

theorem step {s' : Opens V} {a : Action V} (h : ReplayInv s)
    (ha : FailsInTime s.world a ∧ a.isReset = false) (hs : s.step a = some s') :
    ReplayInv s' := by
  have hwait := h.waits.step ha.2 hs
  cases Opens.step_cases hs with
  | quiet hw hrun =>
    have hq := h.waits.faults.mapped.owners.quiet_step hw hrun
    refine ⟨hwait, fun q x i r e hx hi hr he => ?_,
      fun q e he => h.answered q e ((hq.log (.failed q e) nofun).mp he)⟩
    rw [show _ = s.world.table.slots from hq.slots] at he ⊢
    exact h.settled q x i r e (hq.proc ⟨rfl, rfl, fun _ => rfl⟩ hx hi) hi hr he
  | run hw hp hm =>
    exact ⟨hwait, fun _ _ _ _ _ => h.settled_move ha.1 hp hm,
      fun _ _ => h.answered_move hp hm hwait.faults.mapped.owners⟩

end ReplayInv

/-- Without Reset, and with no panic of a Wake recorded while an Open that waited
for something else has yet to look, an Open returns the error of the create or
Wake it ran or waited for. -/
theorem error_replay {grace : ℤ} {acts : List (Action V)} {s : Opens V}
    (hacts : ∀ a ∈ acts, a.isReset = false)
    (htime : Along Opens.step (fun s a => FailsInTime s.world a) (Opens.init grace) acts)
    (hrun : run Opens.step (Opens.init grace) acts = some s) : ErrorReplay s := by
  have hinv : ReplayInv s := run_inv_along (fun _ _ _ h ha hs => h.step ha hs)
    (htime.and_forall hacts) (.init grace) hrun
  refine ⟨hinv.answered, fun p caller i r inp hp hw hother => ?_⟩
  have hnone : (s.world.table.slots i).createErr = none := by
    by_contra hsome
    obtain ⟨e, he⟩ := Option.ne_none_iff_exists'.mp hsome
    obtain ⟨_, _, _, hf⟩ := hinv.waits.faults.stored i e he
    exact hother _ hf (hinv.settled p _ i r e hp rfl hw he).symm
  simp only [advance, hnone]

def openAndSleep : List (Action Unit) :=
  createFor 0 0 "key" () ⟨false, true, false, false⟩ ++ dropFor 0 0 ++ steps 0 2

/-- An Open wakes it, another waits for that Wake, and Wake panics. -/
def panicForBoth : List (Action Unit) :=
  openAndSleep ++ [Action.openKey "key" 1 false] ++ steps 1 2 ++
    [Action.openKey "key" 2 false] ++ steps 2 1 ++ [Action.run 1 (.panicked "wake")] ++
    steps 1 1 ++ steps 2 2

theorem error_replay_panicForBoth : ∃ s : Opens Unit,
    run Opens.step (Opens.init 5) panicForBoth = some s ∧
    .failed 2 (.wakePanic "key" "wake") ∈ s.world.log ∧ s.waited 2 = some (0, 2) ∧
    s.faults 0 = some ⟨1, .wake, 2, .wakePanic "key" "wake"⟩ ∧ ErrorReplay s :=
  ⟨_, rfl, by decide +kernel, by decide +kernel, by decide +kernel,
    @error_replay Unit 5 panicForBoth _ (by decide) (by decide +kernel) rfl⟩

/-- Open 1 parks while the value is put to sleep. The Sleep is over and its
`ready` closed when Open 2 wakes the value and Wake panics; only then does
Open 1 read `createErr`. -/
def overtakenWaiter : List (Action Unit) :=
  createFor 0 0 "key" () ⟨false, true, false, false⟩ ++ dropFor 0 0 ++
    [Action.openKey "key" 1 false] ++ steps 1 1 ++ steps 0 2 ++ steps 1 1 ++
    [Action.openKey "key" 2 false] ++ steps 2 2 ++ [Action.run 2 (.panicked "wake")] ++
    steps 2 1 ++ steps 1 1

/-- It waited for the Sleep, channel 1, and returns the error of the Wake,
channel 2, which Open 2 ran. -/
theorem overtaken_waiter_fails : ∃ s : Opens Unit,
    run Opens.step (Opens.init 5) overtakenWaiter = some s ∧
    (∀ a ∈ overtakenWaiter, a.isReset = false) ∧
    .failed 1 (.wakePanic "key" "wake") ∈ s.world.log ∧ s.waited 1 = some (0, 1) ∧
    s.faults 0 = some ⟨2, .wake, 2, .wakePanic "key" "wake"⟩ ∧ (∀ i ≠ 0, s.faults i = none) ∧
    ¬ ErrorReplay s := by
  have hfaults : ∀ {g : ℕ → Option Fault} {i : ℕ} {f : Fault}, (∀ i ≠ 0, g i = none) →
      g i = some f → i = 0 := by
    intro g i f hg hi
    by_contra hne
    rw [hg i hne] at hi
    cases hi
  refine ⟨_, rfl, by decide, by decide +kernel, by decide +kernel, by decide +kernel,
    fun i hi => update_of_ne hi .., fun h => ?_⟩
  obtain ⟨i, f, hf, _, hwho⟩ := h.answered 1 (.wakePanic "key" "wake") (by decide +kernel) rfl
  obtain rfl := hfaults (fun i hi => update_of_ne hi ..) hf
  obtain rfl : ⟨2, .wake, 2, .wakePanic "key" "wake"⟩ = f := Option.some.inj hf
  rcases hwho with hrun | hwait
  · cases hrun
  · exact absurd hwait (by decide +kernel)

end MiddlewareUtils.Reclaim
