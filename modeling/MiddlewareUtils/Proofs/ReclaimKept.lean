import MiddlewareUtils.Proofs.ReclaimGrace
import MiddlewareUtils.Proofs.ReclaimHolders

/-!
# No value is lost

A created value that has not been closed is always someone's to close. It is
in the hands of a process, or it is mapped and awake with a holder or a drop
to come, or it is mapped and asleep with a grace callback to come. Each of
the three says who acts next, so the value cannot be forgotten.

The counts of `HolderInv` do not say this yet: a count is a number of binds
in the log. Here every pending bind of a slot that has not ended is traced
to a process that still holds the slot (`bound`), so an awake slot with a
count above zero has a holder whose drop will come. A sleeping slot has
count zero, so the callback that comes for it finds nothing in its way: it
never skips, and as long as the slot sleeps its timer is armed or the
callback it started is on its way (`asleep`).
-/

namespace MiddlewareUtils.Reclaim

open Lib Function

variable {V : Type}

inductive Kept (w : World V) (i : ℕ) : Prop
  /-- A running Open, drop or expire owns it. -/
  | owned {p q} (hp : w.procs p = some q) (hq : q.pc.claim i ≠ none)
  /-- A drop under zero grace is about to end it. -/
  | expiring {p q} (hs : (w.table.slots i).state = .asleep) (hp : w.procs p = some q)
      (hq : q.pc.expires i)
  | awake {p q} (hmap : w.table.items (w.table.slots i).key = some i)
      (hs : (w.table.slots i).state = .awake) (hp : w.procs p = some q)
      (hq : q.pc.holds i ∨ q.pc.dropping i)
  | asleep {u} (hmap : w.table.items (w.table.slots i).key = some i)
      (hs : (w.table.slots i).state = .asleep) (hslot : (w.table.timers u).slot = i)
      (hu : (w.table.timers u).status = .armed ∨
        ∃ p, w.procs p = some ⟨.grace u, .claimExpire i none⟩)

def Pc.breaks : Pc V → ℕ → Prop
  | panicked i _ _, j => j = i
  | _, _ => False

def Pc.sleeps : Pc V → ℕ → Prop
  | sleepCall i _, j | sleepRun i _, j | slept i _, j => j = i
  | _, _ => False

/-- What ends the sleep of slot `i`: its timer, or the callback it started;
under zero grace the drop that put it to sleep. -/
def World.SleepEnds (w : World V) (i : ℕ) : Prop :=
  (w.table.grace ≠ 0 ∧ ∃ u, u < w.table.nextTimer ∧ (w.table.slots i).graceTimer = some u ∧
    (w.table.timers u).slot = i ∧ ((w.table.timers u).status = .armed ∨
      ∃ p, w.procs p = some ⟨.grace u, .claimExpire i none⟩)) ∨
  w.table.grace = 0 ∧ ∃ p q, w.procs p = some q ∧ q.pc.expires i

structure KeptInv (w : World V) : Prop where
  holders : HolderInv w
  bound : ∀ i p, (w.table.slots i).state ≠ .gone → p ∈ pending i w.log →
    ∃ q, w.procs p = some q ∧ (q.pc.holds i ∨ q.pc.breaks i)
  nodup : ∀ i, (w.table.slots i).state ≠ .gone → (pending i w.log).Nodup
  idle : ∀ i, (w.table.slots i).state = .asleep → (w.table.slots i).holders = 0
  sleeping : ∀ p q i, w.procs p = some q → q.pc.sleeps i → (w.table.slots i).holders = 0
  asleep : ∀ i, (w.table.slots i).state = .asleep → w.SleepEnds i

/-! ## Binds and releases of a step -/

inductive HoldStep (t : Table V) (p : ℕ) (pc pc' : Pc V) (evs : List Event) : Prop
  | keep (hpend : ∀ j log, pending j (log ++ evs) = pending j log)
      (hholds : ∀ j, pc.holds j → pc'.holds j ∨ pc'.breaks j ∨
        pc.bound j ∧ (t.slots j).finished = false)
  | binds {i} (hpend : ∀ j log, pending j (log ++ evs) =
        if i = j then pending j log ++ [p] else pending j log)
      (hpc : ∀ j, ¬ (pc.holds j ∨ pc.breaks j)) (hpc' : pc'.holds i)
  | releases {i} (hpend : ∀ j log, pending j (log ++ evs) =
        if i = j then (pending j log).erase p else pending j log)
      (hpc : ∀ j, pc.holds j ∨ pc.breaks j → j = i)

section Steps

variable {env : Env} {t t' : Table V} {pc pc' : Pc V} {evs : List Event} {i : ℕ}

theorem HoldStep.same {p : ℕ} (hevs : ∀ e ∈ evs, e.holdFree)
    (hholds : ∀ j, pc.holds j → pc'.holds j) : HoldStep t p pc pc' evs :=
  .keep (fun _ _ => pending_of_holdFree hevs) fun j hj => Or.inl (hholds j hj)

theorem holdFree_left {p : ℕ} {after : AfterClose} : ∀ e ∈ after.left p, e.holdFree := by
  cases after with
  | finish => exact holdFree_leave
  | unmap | reset => exact nofun

theorem Move.hold (hm : Move env t pc t' pc' evs) : HoldStep t env.p pc pc' evs := by
  cases hm with
  | bind => exact .binds (fun _ _ => pending_bind) (fun _ => by simp [Pc.holds, Pc.breaks]) rfl
  | wake => exact .binds (fun _ _ => pending_bind) (fun _ => by simp [Pc.holds, Pc.breaks]) rfl
  | @put i _ hooks =>
    refine .binds (fun j log => ?_) (fun _ => by simp [Pc.holds, Pc.breaks]) rfl
    rw [List.append_cons, pending_bind,
      pending_of_holdFree (by simp [Event.holdFree] : ∀ e ∈ [Event.stored i hooks], e.holdFree)]
  | release =>
    refine .releases (fun _ _ => pending_release) fun j hj => ?_
    exact hj.resolve_right id
  | wakePanic =>
    refine .keep (fun _ _ => pending_of_holdFree ?_) fun _ hj => Or.inr (Or.inl hj)
    simp [Event.holdFree]
  | openedEnded _ hfin =>
    refine .keep (fun _ _ => pending_append.trans rfl) fun j hj => Or.inr (Or.inr ⟨hj, ?_⟩)
    obtain rfl : j = _ := hj
    exact hfin
  | pollEnded _ hfin =>
    refine .keep (fun _ _ => pending_append.trans rfl) fun j hj => Or.inr (Or.inr ⟨hj, ?_⟩)
    obtain rfl : j = _ := hj
    exact hfin
  | opened => exact .keep (fun _ _ => pending_append.trans rfl) fun _ hj => Or.inl hj
  | dropStop | expireSkip | closeFinal => exact .same holdFree_leave fun _ => False.elim
  | parkGrace =>
    refine .same (fun e he => ?_) fun _ => False.elim
    rcases List.mem_cons.mp he with rfl | he
    · trivial
    · exact holdFree_leave e he
  | closed =>
    refine .same (fun e he => ?_) fun _ => False.elim
    rcases List.mem_cons.mp he with rfl | he
    · trivial
    · exact holdFree_left e he
  | publishWake => exact .same (fun _ he => absurd he List.not_mem_nil) fun _ => id
  | _ => exact .same (by simp [Event.holdFree]) (fun _ => id)

theorem Pc.claim_of_breaks (h : pc.breaks i) : ∃ c, pc.claim i = some c := by
  cases pc with
  | panicked => exact ⟨_, if_pos h⟩
  | _ => exact h.elim

theorem Move.breaks_gone (hm : Move env t pc t' pc' evs) (hlt : i < t.nextSlot)
    (h : pc.breaks i) : (t'.slots i).state = .gone := by
  cases hm with
  | @swap j createErr =>
    obtain rfl : i = j := h
    rw [show (t.installCloser i createErr).slots i = _ from
      (update_of_ne hlt.ne ..).trans (update_self ..)]
  | @abort j createErr =>
    obtain rfl : i = j := h
    rw [(t.touches_endBusySlot i createErr).slots, update_self]
  | _ => exact h.elim

theorem Move.timer (hm : Move env t pc t' pc' evs) (hno : ¬ pc.ofReset) {u : ℕ}
    (hu : u < t.nextTimer) :
    t'.timers u = t.timers u ∨ ∃ i, (t.slots i).graceTimer = some u ∧
      (t.slots i).state = .asleep ∧ (t'.slots i).state = .busy := by
  cases hm with
  | @wake _ _ _ i _ _ hs =>
    by_cases hg : (t.slots i).graceTimer = some u
    · refine .inr ⟨i, hg, hs, ?_⟩
      rw [(t.touches_reclaim i).slots, update_self]
    · refine .inl ?_
      show (t.stopTimer (t.slots i).graceTimer).timers u = t.timers u
      unfold Table.stopTimer
      split
      · rfl
      next id hid =>
        split
        · refine update_of_ne ?_ ..
          rintro rfl
          exact hg hid
        · rfl
  | parkGrace => exact .inl (update_of_ne hu.ne ..)
  | putFailed | abort | expireDispose | unmapClosed =>
    exact .inl (congrFun (Table.timers_unmap ..).1 u)
  | takeAll => exact absurd trivial hno
  | _ => exact .inl rfl

theorem Move.nextTimer_le (hm : Move env t pc t' pc' evs) : t.nextTimer ≤ t'.nextTimer := by
  cases hm with
  | wake => exact (t.nextTimer_stopTimer _).ge
  | parkGrace => exact Nat.le_succ _
  | @putFailed i err => exact ((t.endWith i (some err)).timers_unmap i).2.ge
  | @abort i createErr => exact ((t.endWith i createErr).timers_unmap i).2.ge
  | @expireDispose i => exact ((t.endSlot i).timers_unmap i).2.ge
  | unmapClosed => exact (t.timers_unmap _).2.ge
  | _ => exact le_refl _

theorem Move.grace_eq (hm : Move env t pc t' pc' evs) : t'.grace = t.grace := by
  cases hm with
  | wake => exact (t.touches_reclaim _).grace
  | putFailed | abort => exact (t.touches_endBusySlot ..).grace
  | expireDispose => exact ((t.touches_endSlot _).unmap _).grace
  | unmapClosed => exact (t.touches_unmapLocked _).grace
  | _ => rfl

end Steps

/-! ## The invariant -/

theorem OwnersInv.gone_stays {w : World V} {p i : ℕ} {caller : Caller} {pc pc' : Pc V}
    {t : Table V} {evs : List Event} (h : OwnersInv w) (hp : w.procs p = some ⟨caller, pc⟩)
    (hm : Move (w.env p caller) w.table pc t pc' evs) (hlt : i < w.table.nextSlot)
    (hg : (w.table.slots i).state = .gone) : (t.slots i).state = .gone := by
  -- The processes that would revive the slot keep it busy.
  have hbusy : ∀ {phs}, pc.claim i = some ⟨.busy, phs⟩ → False := by
    intro phs hc
    have hst : (w.table.slots i).state = .busy := (h.meets hp hc).1
    rw [hg] at hst
    cases hst
  have hslot := hm.slot i
  generalize t.slots i = s at hslot
  cases hslot with
  | same | released | cleared => exact hg
  | failed | broke | disposed | unmapped | reset => rfl
  | registered hi | closer hi => exact absurd hi hlt.ne
  | held hs | reclaimed hs | claimed hs | enforced hs =>
    rw [hg] at hs
    cases hs
  | put | woken | settled | armed => exact (hbusy (if_pos rfl)).elim

namespace KeptInv

variable {w : World V} {p : ℕ} {caller : Caller} {pc pc' : Pc V} {t : Table V}
  {evs : List Event} {i : ℕ}

theorem pending_made (h : KeptInv w) {q : ℕ} (hq : q ∈ pending i w.log) :
    i < w.table.nextSlot := by
  by_contra hge
  have hcount := h.holders.count i
  rw [h.holders.unmade i (Nat.not_lt.mp hge)] at hcount
  have hpos := List.length_pos_of_mem hq
  omega

section Step

variable (h : KeptInv w) (hp : w.procs p = some ⟨caller, pc⟩)
  (hm : Move (w.env p caller) w.table pc t pc' evs)
include h hp hm

theorem bound_of_live (hs : (t.slots i).state ≠ .gone) {q : ℕ} (hq : q ∈ pending i w.log) :
    ∃ x, w.procs q = some x ∧ (x.pc.holds i ∨ x.pc.breaks i) :=
  h.bound i q (fun hg => hs (h.holders.mapped.owners.gone_stays hp hm (h.pending_made hq) hg)) hq

theorem nodup_of_live (hs : (t.slots i).state ≠ .gone) : (pending i w.log).Nodup := by
  cases hpend : pending i w.log with
  | nil => exact List.nodup_nil
  | cons q qs =>
    rw [← hpend]
    have hlt : i < w.table.nextSlot := h.pending_made (hpend ▸ List.mem_cons_self)
    exact h.nodup i fun hg => hs (h.holders.mapped.owners.gone_stays hp hm hlt hg)

theorem bound_kept (hs : (t.slots i).state ≠ .gone) {q : ℕ} (hq : q ∈ pending i w.log)
    (hself : q = p → pc.holds i → pc'.holds i ∨ pc'.breaks i) :
    ∃ x, (w.moved p caller t pc' evs).procs q = some x ∧ (x.pc.holds i ∨ x.pc.breaks i) := by
  obtain ⟨x, hx, hb⟩ := h.bound_of_live hp hm hs hq
  by_cases hqp : q = p
  · subst hqp
    rw [hp] at hx
    cases hx
    refine ⟨_, World.procs_moved_self, ?_⟩
    rcases hb with hb | hb
    · exact hself rfl hb
    · exact absurd (hm.breaks_gone (h.pending_made hq) hb) hs
  · exact ⟨x, (World.procs_moved_of_ne hqp).trans hx, hb⟩

theorem bound_move (hs : (t.slots i).state ≠ .gone) {q : ℕ} (hq : q ∈ pending i (w.log ++ evs)) :
    ∃ x, (w.moved p caller t pc' evs).procs q = some x ∧ (x.pc.holds i ∨ x.pc.breaks i) := by
  -- The binder itself cannot have held anything before.
  have hown : ∀ {q}, q ∈ pending i w.log → q = p → pc.holds i ∨ pc.breaks i := by
    rintro q hq rfl
    obtain ⟨x, hx, hb⟩ := h.bound_of_live hp hm hs hq
    rw [hp] at hx
    cases hx
    exact hb
  cases hm.hold with
  | keep hpend hholds =>
    rw [hpend] at hq
    refine h.bound_kept hp hm hs hq fun _ hb => ?_
    rcases hholds i hb with hb' | hb' | ⟨hbound, hfin⟩
    · exact .inl hb'
    · exact .inr hb'
    · rw [h.holders.finished_of_awake (h.holders.bound p _ i hp hbound)] at hfin
      cases hfin
  | @binds j hpend hpc hpc' =>
    have hother : ∀ {q}, q ∈ pending i w.log → ∃ x,
        (w.moved p caller t pc' evs).procs q = some x ∧ (x.pc.holds i ∨ x.pc.breaks i) :=
      fun hq => h.bound_kept hp hm hs hq fun _ hb => absurd (Or.inl hb) (hpc i)
    rw [hpend] at hq
    split at hq
    next hji =>
      rcases List.mem_append.mp hq with hq | hq
      · exact hother hq
      · rw [List.mem_singleton.mp hq]
        exact ⟨_, World.procs_moved_self, Or.inl (hji ▸ hpc')⟩
    · exact hother hq
  | @releases j hpend hpc =>
    rw [hpend] at hq
    split at hq
    next hji =>
      obtain ⟨hqp, hq⟩ := (h.nodup_of_live hp hm hs).mem_erase_iff.mp hq
      exact h.bound_kept hp hm hs hq fun he => absurd he hqp
    next hji =>
      exact h.bound_kept hp hm hs hq fun he _ => absurd (hpc i (hown hq he)).symm hji

theorem nodup_move (hs : (t.slots i).state ≠ .gone) : (pending i (w.log ++ evs)).Nodup := by
  have hnodup := h.nodup_of_live hp hm hs
  cases hm.hold with
  | keep hpend _ =>
    rw [hpend]
    exact hnodup
  | binds hpend hpc _ =>
    rw [hpend]
    split
    · refine List.nodup_append.mpr ⟨hnodup, by simp, fun q hq q' hq' he => ?_⟩
      obtain rfl : q = p := he.trans (List.mem_singleton.mp hq')
      obtain ⟨x, hx, hb⟩ := h.bound_of_live hp hm hs hq
      rw [hp] at hx
      cases hx
      exact hpc i hb
    · exact hnodup
  | releases hpend _ =>
    rw [hpend]
    split
    · exact hnodup.erase p
    · exact hnodup

theorem expires_ends (hpc : pc.expires i) (hs : (w.table.slots i).state = .asleep) :
    (t.slots i).state ≠ .asleep := by
  cases hm with
  | @expireSkip j err hskip =>
    obtain rfl : i = j := hpc
    exact absurd ⟨hs, h.idle i hs⟩ hskip
  | @expireEnforce j =>
    obtain rfl : i = j := hpc
    rw [(w.table.touches_enterBusy i).slots, update_self]
    exact nofun
  | @expireDispose j =>
    obtain rfl : i = j := hpc
    rw [((w.table.touches_endSlot i).unmap i).slots, update_self]
    exact nofun
  | _ => exact hpc.elim

theorem sleeping_move (ho : OwnersInv (w.moved p caller t pc' evs)) {q : ℕ} {x : Proc V}
    (hx : (w.moved p caller t pc' evs).procs q = some x) (hi : x.pc.sleeps i) :
    (t.slots i).holders = 0 := by
  rcases World.procs_moved_back hx with ⟨rfl, rfl⟩ | ⟨hqp, hq⟩
  · cases hm with
    | @dropClaim j err hh hs =>
      obtain rfl : i = j := hi
      rw [(w.table.touches_enterBusy i).slots, update_self]
      exact hh
    | sleepStart | slept => exact h.sleeping q _ i hp hi
    | @closed _ after _ => cases after <;> exact hi.elim
    | _ => exact hi.elim
  · have hzero := h.sleeping q x i hq hi
    have hc : ∃ phs, x.pc.claim i = some ⟨.busy, phs⟩ := by
      generalize x.pc = pcx at hi
      cases pcx with
      | sleepCall | sleepRun | slept => exact ⟨_, if_pos hi⟩
      | _ => exact hi.elim
    obtain ⟨phs, hc⟩ := hc
    obtain ⟨hst, _, _, hin⟩ := h.holders.mapped.owners.meets hq hc
    have hst' : (w.table.slots i).state = .busy := hst
    have hmade : i < w.table.nextSlot := hin.made
    have hslot := hm.slot i
    generalize t.slots i = s at hslot
    cases hslot with
    | registered he | closer he => exact absurd he hmade.ne
    | held hs | reclaimed hs =>
      rw [hst'] at hs
      cases hs
    | put => exact absurd (h.holders.mapped.owners.claim_unique hq hp hc (if_pos rfl)) hqp
    | released =>
      have hawake := h.holders.bound p _ i hp rfl
      rw [hst'] at hawake
      cases hawake
    | _ => exact hzero

theorem idle_move (hs : (t.slots i).state = .asleep) : (t.slots i).holders = 0 := by
  have hslot := hm.slot i
  generalize t.slots i = s at hslot hs
  cases hslot with
  | same | cleared => exact h.idle i hs
  | held hawake =>
    rw [hawake] at hs
    cases hs
  | released =>
    have hawake := h.holders.bound p _ i hp rfl
    rw [hawake] at hs
    cases hs
  | settled | armed => exact h.sleeping p _ i hp rfl
  | _ => cases hs

theorem asleep_move (hs : (t.slots i).state = .asleep) :
    (w.moved p caller t pc' evs).SleepEnds i := by
  have hno := h.holders.mapped.noReset p _ hp
  -- A process on its way to the slot is still on its way, or has taken it.
  have hstays : ∀ {q x}, (w.table.slots i).state = .asleep → w.procs q = some x →
      x.pc.expires i → (w.moved p caller t pc' evs).procs q = some x := by
    intro q x hst hx hi
    by_cases hqp : q = p
    · subst hqp
      rw [hp] at hx
      cases hx
      exact absurd hs (h.expires_ends hp hm hi hst)
    · exact (World.procs_moved_of_ne hqp).trans hx
  have hslot := hm.slot i
  generalize hti : t.slots i = s at hslot hs
  cases hslot with
  | same =>
    rcases h.asleep i hs with ⟨hg, u, hlt, hgt, hu, hends⟩ | ⟨hg, q, x, hx, hi⟩
    · have htimer : t.timers u = w.table.timers u := by
        refine (hm.timer hno hlt).resolve_right fun ⟨j, hj, hja, hjb⟩ => ?_
        rcases h.asleep j hja with ⟨_, v, _, hv, hvj, _⟩ | ⟨hzero, _⟩
        · -- The stopped timer is `j`'s own, so `j` is `i`, which goes on sleeping.
          rw [hj] at hv
          obtain rfl := Option.some.inj hv
          obtain rfl : j = i := hvj.symm.trans hu
          rw [hti, hs] at hjb
          cases hjb
        · exact hg hzero
      refine .inl ⟨hm.grace_eq ▸ hg, u, hlt.trans_le hm.nextTimer_le, ?_, ?_, ?_⟩
      · show (t.slots i).graceTimer = some u
        rw [hti]
        exact hgt
      · show (t.timers u).slot = i
        rw [htimer]
        exact hu
      · refine hends.imp (fun harmed => ?_) fun ⟨q, hq⟩ => ⟨q, hstays hs hq rfl⟩
        show (t.timers u).status = .armed
        rw [htimer]
        exact harmed
    · exact .inr ⟨hm.grace_eq.trans hg, q, x, hstays hs hx hi, hi⟩
  | cleared => exact absurd trivial hno
  | held hawake =>
    rw [hawake] at hs
    cases hs
  | released =>
    rw [h.holders.bound p _ i hp rfl] at hs
    cases hs
  | settled hg =>
    have hzero := hg.resolve_right fun hun => hun (h.holders.mapped.busy hp (if_pos rfl))
    exact .inr ⟨hm.grace_eq.trans hzero, p, _, World.procs_moved_self, rfl⟩
  | armed hg =>
    cases hm with
    | parkGrace =>
      have hnew : ((w.table.settleAsleep i).armGrace i (w.env p caller).now).timers
          w.table.nextTimer = ⟨i, _, .armed⟩ := update_self ..
      refine .inl ⟨hg, w.table.nextTimer, Nat.lt_succ_self _, congrArg Slot.graceTimer hti,
        congrArg GraceTimer.slot hnew, Or.inl (congrArg GraceTimer.status hnew)⟩
  | _ => cases hs

theorem move (hh : HolderInv (w.moved p caller t pc' evs)) :
    KeptInv (w.moved p caller t pc' evs) where
  holders := hh
  bound := fun _ _ hs hq => h.bound_move hp hm hs hq
  nodup := fun _ hs => h.nodup_move hp hm hs
  idle := fun _ hs => h.idle_move hp hm hs
  sleeping := fun _ _ _ hx hi => h.sleeping_move hp hm hh.mapped.owners hx hi
  asleep := fun _ hs => h.asleep_move hp hm hs

/-! ## Whole runs -/

end Step

theorem init (grace : ℤ) : KeptInv (World.init (V := V) grace) where
  holders := .init grace
  bound := fun _ _ hs => absurd rfl hs
  nodup := fun _ hs => absurd rfl hs
  idle := nofun
  sleeping := fun _ _ _ hp => absurd hp World.procs_init
  asleep := nofun

theorem spawned (h : KeptInv w) {w' : World V} (hh : HolderInv w')
    (hslots : w'.table.slots = w.table.slots) (hlog : w'.log = w.log)
    (hprocs : w'.procs = update w.procs w.next (some ⟨caller, pc⟩))
    (hpc : ∀ i, ¬ pc.sleeps i) (hends : ∀ i, w.SleepEnds i → w'.SleepEnds i) : KeptInv w' := by
  have hold : ∀ {q x}, w.procs q = some x → w'.procs q = some x :=
    fun hq => hprocs ▸ h.holders.mapped.owners.procs_spawn hq
  refine ⟨hh, ?_, ?_, ?_, fun q x i hx hi => ?_, ?_⟩
  · rw [hslots, hlog]
    intro i q hs hq
    obtain ⟨x, hx, hb⟩ := h.bound i q hs hq
    exact ⟨x, hold hx, hb⟩
  · rw [hslots, hlog]
    exact h.nodup
  · rw [hslots]
    exact h.idle
  · rw [hslots]
    rw [hprocs] at hx
    rcases World.procs_update_back hx with rfl | hx
    · exact absurd hi (hpc i)
    · exact h.sleeping q x i hx hi
  · rw [hslots]
    exact fun i hs => hends i (h.asleep i hs)

theorem sleepEnds_spawn (h : KeptInv w) (hs : w.SleepEnds i) : (w.spawn caller pc).SleepEnds i := by
  have hold : ∀ {q x}, w.procs q = some x → (w.spawn caller pc).procs q = some x :=
    fun hq => h.holders.mapped.owners.procs_spawn hq
  rcases hs with ⟨hg, u, hlt, hgt, hu, hends⟩ | ⟨hg, q, x, hx, hi⟩
  · exact .inl ⟨hg, u, hlt, hgt, hu, hends.imp id fun ⟨q, hq⟩ => ⟨q, hold hq⟩⟩
  · exact .inr ⟨hg, q, x, hold hx, hi⟩

theorem sleepEnds_fire (h : KeptInv w) {u : ℕ} (hs : w.SleepEnds i) :
    ((w.fired u).spawn (.grace u) (.claimExpire (w.table.timers u).slot none)).SleepEnds i := by
  have hold : ∀ {q x}, w.procs q = some x → ((w.fired u).spawn (.grace u)
      (.claimExpire (w.table.timers u).slot none)).procs q = some x :=
    fun hq => h.holders.mapped.owners.procs_spawn hq
  rcases hs with ⟨hg, v, hlt, hgt, hv, hends⟩ | ⟨hg, q, x, hx, hi⟩
  · refine .inl ⟨hg, v, hlt, hgt, ?_⟩
    show ((w.fired u).table.timers v).slot = i ∧ (((w.fired u).table.timers v).status = .armed ∨ _)
    by_cases hvu : v = u
    · subst hvu
      rw [show (w.fired v).table.timers v = _ from update_self ..]
      refine ⟨hv, Or.inr ⟨w.next, ?_⟩⟩
      rw [hv]
      exact update_self ..
    · rw [show (w.fired u).table.timers v = _ from update_of_ne hvu ..]
      exact ⟨hv, hends.imp id fun ⟨q, hq⟩ => ⟨q, hold hq⟩⟩
  · exact .inr ⟨hg, q, x, hold hx, hi⟩

theorem step {w' : World V} {a : Action V} (h : KeptInv w) (ha : a.isReset = false)
    (hs : w.step a = some w') : KeptInv w' := by
  have hh := h.holders.step ha hs
  cases World.step_cases hs with
  | openKey => exact h.spawned hh rfl rfl rfl (fun _ => id) fun _ => h.sleepEnds_spawn
  | @cancel ctx err hc =>
    have hpend : ∀ i, pending i (w.log ++ [Event.ctxDone ctx]) = pending i w.log :=
      fun i => pending_of_holdFree (by simp [Event.holdFree])
    refine ⟨hh, fun i q hs hq => ?_, fun i hs => ?_, h.idle, h.sleeping, h.asleep⟩
    · exact h.bound i q hs (hpend i ▸ hq)
    · show (pending i (w.log ++ [Event.ctxDone ctx])).Nodup
      rw [hpend]
      exact h.nodup i hs
  | reset => cases ha
  | tick => exact ⟨hh, h.bound, h.nodup, h.idle, h.sleeping, h.asleep⟩
  | fire => exact h.spawned hh rfl rfl rfl (fun _ => id) fun _ => h.sleepEnds_fire
  | run hp hm => exact h.move hp hm hh

theorem kept (h : KeptInv w) (hborn : ⟨.create, .returned⟩ ∈ calls i w.log)
    (hopen : ∀ c ∈ calls i w.log, c.hook ≠ .close) : Kept w i := by
  have ho := h.holders.mapped.owners
  have hmap := h.holders.mapped.mapping
  by_cases hown : ∃ p, Owns (w.procs p) i
  · obtain ⟨p, hp⟩ := hown
    cases hproc : w.procs p with
    | none => rw [hproc] at hp; exact hp.elim
    | some q =>
      rw [hproc] at hp
      exact .owned hproc hp
  · cases ho.owned.rests i fun p hp => hown ⟨p, hp⟩ with
    | resting hr hst hin =>
      cases hr with
      | awake =>
        have hawake : (w.table.slots i).state = .awake := hst
        by_cases hz : (w.table.slots i).holders = 0
        · obtain ⟨p, q, hp, hq⟩ := h.holders.last i hawake hz
          exact .awake (hmap.of_awake hawake) hawake hp (Or.inr hq)
        · have hpend : pending i w.log ≠ [] := by
            intro hnil
            rw [h.holders.count i, hnil] at hz
            exact hz rfl
          obtain ⟨p, hp⟩ := List.exists_mem_of_ne_nil _ hpend
          obtain ⟨q, hq, hb⟩ := h.bound i p (by rw [hawake]; exact nofun) hp
          refine .awake (hmap.of_awake hawake) hawake hq (Or.inl (hb.resolve_right fun hb => ?_))
          refine hown ⟨p, ?_⟩
          rw [hq]
          exact Option.ne_none_iff_exists'.mpr (Pc.claim_of_breaks hb)
      | asleep =>
        have hasleep : (w.table.slots i).state = .asleep := hst
        rcases h.asleep i hasleep with ⟨hg, u, _, _, hu, hends⟩ | ⟨_, p, q, hp, hq⟩
        · refine .asleep ?_ hasleep hu hends
          exact (hmap.mapped i (by rw [hasleep]; exact nofun)).resolve_right fun hun =>
            hg hun.2.1
        · exact .expiring hasleep hp hq
    | ended hph _ hin =>
      have htr : Trace _ (calls i w.log) := hin.trace
      generalize calls i w.log = cs at htr hborn hopen
      rcases hph with rfl | rfl | rfl
      · cases htr
        simp at hborn
      · cases htr with
        | closed => exact absurd rfl (hopen _ (List.mem_append_right _ List.mem_cons_self))
      · cases htr
        cases hborn
    | unmade _ _ hcalls =>
      rw [show calls i w.log = [] from hcalls] at hborn
      cases hborn

end KeptInv

end MiddlewareUtils.Reclaim
