import MiddlewareUtils.Lib.History
import MiddlewareUtils.Proofs.ReclaimLifecycle
import MiddlewareUtils.Proofs.ReclaimMapping

/-!
# Holders

`holders` counts the binds no drop has released, and nothing ends a value
that has one. Both halves rest on the same few facts about the processes:

- an Open that has bound and not yet released is among the pending binds of
  its slot, so that slot's count is not zero;
- once it is past Wake, its slot is awake. Only `claimDrop` takes a slot out
  of awake, and only at count zero, so the slot stays awake and mapped until
  the holder's own drop;
- a slot that is awake at count zero owes that to a drop that has released
  and not left `claimDrop`: the Opens that make a slot awake have just bound
  it.

What a caller sees follows. A value Open returned is watched until its
context is done, so it is awake until then, and a process about to start a
hook owns its slot, which an awake slot does not allow.
-/

namespace MiddlewareUtils.Reclaim

open Lib Function

variable {V : Type}

def recordHold (i : ℕ) (ps : List ℕ) : Event → List ℕ
  | .bind p j => if j = i then ps ++ [p] else ps
  | .release p j => if j = i then ps.erase p else ps
  | _ => ps

/-- The Opens whose bind of slot `i` no drop has released. -/
def pending (i : ℕ) (log : List Event) : List ℕ := log.foldl (recordHold i) []

def Pc.dropping : Pc V → ℕ → Prop
  | claimDrop i _, j | dropParked i _ _, j => j = i
  | _, _ => False

/-- Every Sleep and Close starts after the contexts of the value's holders
have ended. -/
def NoHookUnderHolder (pre : List Event) (e : Event) : Prop :=
  ∀ h i k, e = .start h i k → h = .sleep ∨ h = .close →
    ∀ p c, .opened p i c ∈ pre → .ctxDone c ∈ pre

/-- What Open promises those it returned a value to. -/
structure HolderSafety (w : World V) : Prop where
  /-- A value Open returned stays mapped and awake until its context is done. -/
  kept : ∀ p i c, .opened p i c ∈ w.log → .ctxDone c ∉ w.log →
    w.table.items (w.table.slots i).key = some i ∧ (w.table.slots i).state = .awake
  unhooked : Precedes NoHookUnderHolder w.log
  count : ∀ i, (w.table.slots i).holders = (pending i w.log).length
  nonneg : ∀ i, 0 ≤ (w.table.slots i).holders
  last : ∀ i, (w.table.slots i).state = .awake → (w.table.slots i).holders = 0 →
    ∃ p q, w.procs p = some q ∧ q.pc.dropping i

/-! ## The processes that hold -/

def Pc.holds : Pc V → ℕ → Prop
  | wakeCall i, j | wakeRun i, j | publishWake i, j | finishBind i, j | dropWhenDone i, j
  | live i, j | watchErr i, j | release i _, j => j = i
  | _, _ => False

def Pc.bound : Pc V → ℕ → Prop
  | finishBind i, j | dropWhenDone i, j | live i, j | watchErr i, j | release i _, j => j = i
  | _, _ => False

def Pc.watches : Pc V → ℕ → Prop
  | live i, j | watchErr i, j => j = i
  | _, _ => False

def Caller.ctx : Caller → Option ℕ
  | opener _ ctx _ => some ctx
  | _ => none

structure HolderInv (w : World V) : Prop where
  mapped : MappedInv w
  count : ∀ i, (w.table.slots i).holders = (pending i w.log).length
  unmade : ∀ i, w.table.nextSlot ≤ i → (w.table.slots i).holders = 0
  holds : ∀ p q i, w.procs p = some q → q.pc.holds i → p ∈ pending i w.log
  bound : ∀ p q i, w.procs p = some q → q.pc.bound i → (w.table.slots i).state = .awake
  last : ∀ i, (w.table.slots i).state = .awake → (w.table.slots i).holders = 0 →
    ∃ p q, w.procs p = some q ∧ q.pc.dropping i
  opened : ∀ p i c, .opened p i c ∈ w.log → w.ctxErr c = none →
    ∃ q, w.procs p = some q ∧ q.caller.ctx = some c ∧ q.pc.watches i
  done : ∀ c, w.ctxErr c ≠ none → .ctxDone c ∈ w.log
  unhooked : Precedes NoHookUnderHolder w.log

theorem Pc.holds_of_bound {pc : Pc V} {i : ℕ} (h : pc.bound i) : pc.holds i := by
  cases pc <;> first | exact h | exact h.elim

theorem Pc.bound_of_watches {pc : Pc V} {i : ℕ} (h : pc.watches i) : pc.bound i := by
  cases pc <;> first | exact h | exact h.elim

/-! ## Pending binds -/

def Event.holdFree : Event → Prop
  | bind _ _ | release _ _ | opened _ _ _ => False
  | _ => True

theorem pending_append {i : ℕ} {log evs : List Event} :
    pending i (log ++ evs) = evs.foldl (recordHold i) (pending i log) :=
  List.foldl_append

theorem pending_of_holdFree {i : ℕ} {log evs : List Event} (hevs : ∀ e ∈ evs, e.holdFree) :
    pending i (log ++ evs) = pending i log := by
  induction evs generalizing log with
  | nil => rw [List.append_nil]
  | cons e evs ih =>
    have hrec : recordHold i (pending i log) e = pending i log := by
      have he := hevs e List.mem_cons_self
      cases e with
      | bind | release => exact he.elim
      | _ => rfl
    rw [pending_append, List.foldl_cons, hrec, ← pending_append]
    exact ih fun e' he' => hevs e' (List.mem_cons_of_mem e he')

theorem pending_bind {i j p : ℕ} {log : List Event} :
    pending i (log ++ [Event.bind p j]) =
      if j = i then pending i log ++ [p] else pending i log := by
  rw [pending_append]
  rfl

theorem pending_release {i j p : ℕ} {log : List Event} :
    pending i (log ++ [Event.release p j]) =
      if j = i then (pending i log).erase p else pending i log := by
  rw [pending_append]
  rfl

theorem holdFree_leave {p : ℕ} {err : Option OpenError} : ∀ e ∈ leave p err, e.holdFree := by
  intro e he
  cases err with
  | none => cases he
  | some err =>
    rw [List.mem_singleton.mp he]
    trivial

/-! ## One step of one process -/

def Pc.calling : Pc V → Option (Hook × ℕ)
  | createCall i => some (.create, i)
  | wakeCall i => some (.wake, i)
  | sleepCall i _ | resetSleepCall i _ => some (.sleep, i)
  | closeCall i _ => some (.close, i)
  | _ => none

theorem Pc.claim_of_calling {pc : Pc V} {hk : Hook} {i : ℕ} (h : pc.calling = some (hk, i)) :
    ∃ c, pc.claim i = some c := by
  cases pc with
  | createCall | wakeCall | sleepCall | resetSleepCall | closeCall =>
    injection h with h
    injection h with _ h
    subst h
    exact ⟨_, if_pos rfl⟩
  | _ => cases h

theorem Move.start_calling {env : Env} {t t' : Table V} {pc pc' : Pc V} {evs : List Event}
    {hk : Hook} {i : ℕ} {k : String} (hm : Move env t pc t' pc' evs)
    (he : .start hk i k ∈ evs) :
    evs = [.start hk i k] ∧ pc.calling = some (hk, i) := by
  have hone : ∀ {hk' i' k'}, Event.start hk i k ∈ [Event.start hk' i' k'] →
      [Event.start hk' i' k'] = [Event.start hk i k] ∧ some (hk', i') = some (hk, i) := by
    intro hk' i' k' hmem
    rw [List.mem_singleton] at hmem
    injection hmem with h1 h2 h3
    rw [h1, h2, h3]
    exact ⟨rfl, rfl⟩
  have hleave : ∀ {p err}, Event.start hk i k ∉ leave p err := by
    intro p err hmem
    exact foreign_leave i _ hmem rfl
  cases hm with
  | createStart | wakeStart | sleepStart | closeStart | resetSleepStart => exact hone he
  | dropStop | expireSkip | closeFinal => exact absurd he hleave
  | parkGrace =>
    rcases List.mem_cons.mp he with he | he
    · cases he
    · exact absurd he hleave
  | closed =>
    rcases List.mem_cons.mp he with he | he
    · cases he
    · exact absurd rfl (foreign_left i _ he)
  | _ => simp at he

def Pc.handsOver : Pc V → Pc V → Bool
  | .lookup, .finishBind _ | .lookup, .wakeCall _ | .publishPut .., _ | .publishWake _, _
  | .dropWhenDone _, _ | .release .., _ | .claimDrop .., .sleepCall .. => true
  | _, _ => false

theorem Move.holdFree {env : Env} {t t' : Table V} {pc pc' : Pc V} {evs : List Event}
    (hm : Move env t pc t' pc' evs) (hpc : pc.handsOver pc' = false) :
    ∀ e ∈ evs, e.holdFree := by
  intro e he
  cases hm with
  | bind | wake | put | opened | openedEnded | release => cases hpc
  | dropStop | expireSkip | closeFinal => exact holdFree_leave e he
  | parkGrace =>
    rcases List.mem_cons.mp he with rfl | he
    · trivial
    · exact holdFree_leave e he
  | @closed _ after =>
    rcases List.mem_cons.mp he with rfl | he
    · trivial
    · cases after with
      | finish => exact holdFree_leave e he
      | _ => cases he
  | replay | createStart | created | createFail | putFailed | wakeStart | woken | wakePanic
  | sleepStart | slept | sleepPanic | expireEnforce | expireDispose | closeStart
  | resetSleepStart | resetSlept =>
    rw [List.mem_singleton.mp he]
    trivial
  | _ => cases he

namespace HolderInv

variable {w : World V} {p : ℕ} {caller : Caller} {pc pc' : Pc V} {t : Table V}
  {evs : List Event} {i : ℕ}

theorem holders_ne_zero (h : HolderInv w) {q : Proc V} (hp : w.procs p = some q)
    (hq : q.pc.holds i) : (w.table.slots i).holders ≠ 0 := by
  intro h0
  have hc := h.count i
  rw [h0] at hc
  have hnil : pending i w.log = [] := List.length_eq_zero_iff.mp (by omega)
  have hmem := h.holds p q i hp hq
  rw [hnil] at hmem
  cases hmem

theorem not_awake (h : HolderInv w) (hp : w.procs p = some ⟨caller, pc⟩) {c : Claim}
    (hc : pc.claim i = some c) : (w.table.slots i).state ≠ .awake :=
  h.mapped.owners.not_resting hp hc .awake

section Step

variable (h : HolderInv w) (hp : w.procs p = some ⟨caller, pc⟩)
  (hm : Move (w.env p caller) w.table pc t pc' evs)
  (hmap : MappedInv (w.moved p caller t pc' evs))

include h hp hm

theorem slot_calm (hpc : pc.handsOver pc' = false) (j : ℕ) :
    (t.slots j).holders = (w.table.slots j).holders ∧
      ((t.slots j).state = .awake ↔ (w.table.slots j).state = .awake) := by
  have hslot := hm.slot j
  generalize t.slots j = s at hslot
  cases hslot with
  | same | cleared => exact ⟨rfl, Iff.rfl⟩
  | held | reclaimed | put | woken | released | claimed => cases hpc
  | registered hj | closer hj =>
    rw [hj, h.unmade _ (le_refl _), (h.mapped.owners.unmade (le_refl _)).1]
    exact ⟨rfl, nofun, nofun⟩
  | failed | settled | armed | broke | unmapped =>
    exact ⟨rfl, nofun, fun ha => absurd ha (h.not_awake hp (if_pos rfl))⟩
  | enforced hs | disposed hs => exact ⟨rfl, nofun, fun ha => absurd (ha.symm.trans hs) nofun⟩
  | reset => exact absurd trivial (h.mapped.noReset p _ hp)

include hmap

theorem moved
    (hcount : ∀ i, (t.slots i).holders = (pending i (w.log ++ evs)).length)
    (hunmade : ∀ i, t.nextSlot ≤ i → (t.slots i).holders = 0)
    (hothers : ∀ q ≠ p, ∀ i, q ∈ pending i w.log → q ∈ pending i (w.log ++ evs))
    (hstay : ∀ i, (w.table.slots i).state = .awake → (w.table.slots i).holders ≠ 0 →
      (t.slots i).state = .awake)
    (hholds : ∀ i, pc'.holds i → p ∈ pending i (w.log ++ evs))
    (hbound : ∀ i, pc'.bound i → (t.slots i).state = .awake)
    (hlast : ∀ i, (t.slots i).state = .awake → (t.slots i).holders = 0 → pc'.dropping i ∨
      (w.table.slots i).state = .awake ∧ (w.table.slots i).holders = 0 ∧ ¬ pc.dropping i)
    (hopened : ∀ q i c, .opened q i c ∈ evs → q = p ∧ caller.ctx = some c ∧ pc'.watches i)
    (hwatch : ∀ i, pc.watches i → pc'.watches i ∨ ∀ c, caller.ctx = some c → w.ctxErr c ≠ none) :
    HolderInv (w.moved p caller t pc' evs) := by
  have hself : (w.moved p caller t pc' evs).procs p = some ⟨caller, pc'⟩ :=
    World.procs_moved_self
  have hne : ∀ {q}, q ≠ p → (w.moved p caller t pc' evs).procs q = w.procs q :=
    World.procs_moved_of_ne
  refine ⟨hmap, hcount, hunmade, fun q x i hq hx => ?_, fun q x i hq hx => ?_, fun i ha h0 => ?_,
    fun q i c hmem hc => ?_, fun c hc => List.mem_append_left _ (h.done c hc), ?_⟩
  · obtain ⟨rfl, rfl⟩ | ⟨hqp, hq⟩ := World.procs_moved_back hq
    · exact hholds i hx
    · exact hothers q hqp i (h.holds q x i hq hx)
  · obtain ⟨rfl, rfl⟩ | ⟨hqp, hq⟩ := World.procs_moved_back hq
    · exact hbound i hx
    · exact hstay i (h.bound q x i hq hx) (h.holders_ne_zero hq (Pc.holds_of_bound hx))
  · rcases hlast i ha h0 with hd | ⟨ha', h0', hnd⟩
    · exact ⟨p, _, hself, hd⟩
    · obtain ⟨q, x, hq, hx⟩ := h.last i ha' h0'
      have hqp : q ≠ p := by
        rintro rfl
        rw [hp] at hq
        cases hq
        exact hnd hx
      exact ⟨q, x, (hne hqp).trans hq, hx⟩
  · rcases List.mem_append.mp hmem with hmem | hmem
    · obtain ⟨x, hq, hctx, hx⟩ := h.opened q i c hmem hc
      by_cases hqp : q = p
      · subst hqp
        rw [hp] at hq
        cases hq
        rcases hwatch i hx with hw | hdone
        · exact ⟨_, hself, hctx, hw⟩
        · exact absurd hc (hdone c hctx)
      · exact ⟨x, (hne hqp).trans hq, hctx, hx⟩
    · obtain ⟨rfl, hctx, hw⟩ := hopened q i c hmem
      exact ⟨_, hself, hctx, hw⟩
  · by_cases hst : ∃ hk i k, Event.start hk i k ∈ evs
    · obtain ⟨hk, i, k, hmem⟩ := hst
      obtain ⟨rfl, hcall⟩ := hm.start_calling hmem
      obtain ⟨c, hc⟩ := Pc.claim_of_calling hcall
      refine h.unhooked.snoc fun hk' i' k' he _ q c' hq => ?_
      injection he with _ hi _
      subst hi
      by_contra hnd
      have hctx : w.ctxErr c' = none := by
        by_contra hsome
        exact hnd (h.done c' hsome)
      obtain ⟨x, hx, _, hw⟩ := h.opened q i c' hq hctx
      have hawake := h.bound q x i hx (Pc.bound_of_watches hw)
      have hst := (h.mapped.owners.meets hp hc).1
      rw [show (w.view i).state = .awake from hawake] at hst
      rcases Pc.claim_state hc with hb | hb <;> rw [hb] at hst <;> cases hst
    · refine h.unhooked.append fun e he pre hk i k hek => ?_
      exact absurd ⟨hk, i, k, hek ▸ he⟩ hst

theorem calm (hpc : pc.handsOver pc' = false)
    (hholds : ∀ i, pc'.holds i → pc.holds i) (hbound : ∀ i, pc'.bound i → pc.bound i)
    (hdrop : ∀ i, pc.dropping i → pc'.dropping i ∨
      ¬ ((w.table.slots i).holders = 0 ∧ (w.table.slots i).state = .awake))
    (hwatch : ∀ i, pc.watches i → pc'.watches i ∨ ∀ c, caller.ctx = some c → w.ctxErr c ≠ none) :
    HolderInv (w.moved p caller t pc' evs) := by
  have hcalm := h.slot_calm hp hm hpc
  have hevs := hm.holdFree hpc
  refine h.moved hp hm hmap (fun i => ?_) (fun i hi => ?_) (fun q _ i hq => ?_)
    (fun i ha _ => (hcalm i).2.mpr ha) (fun i hi => ?_) (fun i hi => ?_) (fun i ha h0 => ?_)
    (fun q i c hmem => (hevs _ hmem).elim) hwatch
  · rw [(hcalm i).1, pending_of_holdFree hevs]
    exact h.count i
  · rw [(hcalm i).1]
    exact h.unmade i (hm.nextSlot_le.trans hi)
  · rw [pending_of_holdFree hevs]
    exact hq
  · rw [pending_of_holdFree hevs]
    exact h.holds p _ i hp (hholds i hi)
  · exact (hcalm i).2.mpr (h.bound p _ i hp (hbound i hi))
  · rw [(hcalm i).1] at h0
    rw [(hcalm i).2] at ha
    by_cases hd : pc.dropping i
    · exact .inl ((hdrop i hd).resolve_right fun hn => hn ⟨h0, ha⟩)
    · exact .inr ⟨ha, h0, hd⟩

theorem moved_slot {s : Slot V} (ht : w.table.Touches i s t)
    (hmade : i < w.table.nextSlot)
    (hpend : ∀ j ≠ i, pending j (w.log ++ evs) = pending j w.log)
    (hcount : s.holders = (pending i (w.log ++ evs)).length)
    (hothers : ∀ q ≠ p, q ∈ pending i w.log → q ∈ pending i (w.log ++ evs))
    (hstay : (w.table.slots i).state = .awake → (w.table.slots i).holders ≠ 0 → s.state = .awake)
    (hholds : ∀ j, pc'.holds j → j = i ∧ p ∈ pending i (w.log ++ evs))
    (hbound : ∀ j, pc'.bound j → s.state = .awake)
    (hlast : s.state = .awake → s.holders = 0 → pc'.dropping i)
    (hopened : ∀ q j c, .opened q j c ∉ evs) (hdrop : ∀ j ≠ i, ¬ pc.dropping j)
    (hwatch : ∀ j, ¬ pc.watches j) : HolderInv (w.moved p caller t pc' evs) := by
  have hself : t.slots i = s := by rw [ht.slots, update_self]
  have hne : ∀ {j}, j ≠ i → t.slots j = w.table.slots j := by
    intro j hj
    rw [ht.slots, update_of_ne hj]
  refine h.moved hp hm hmap (fun j => ?_) (fun j hj => ?_) (fun q hq j hmem => ?_)
    (fun j ha h0 => ?_) (fun j hj => ?_) (fun j hj => ?_) (fun j ha h0 => ?_)
    (fun q j c hmem => absurd hmem (hopened q j c)) (fun j hj => absurd hj (hwatch j))
  · by_cases hj : j = i
    · rw [hj, hself, hcount]
    · rw [hne hj, hpend j hj, h.count j]
  · rw [ht.nextSlot] at hj
    rw [hne (by omega)]
    exact h.unmade j hj
  · by_cases hj : j = i
    · subst hj
      exact hothers q hq hmem
    · rw [hpend j hj]
      exact hmem
  · by_cases hj : j = i
    · subst hj
      rw [hself]
      exact hstay ha h0
    · rw [hne hj]
      exact ha
  · obtain ⟨rfl, hmem⟩ := hholds j hj
    exact hmem
  · rw [(hholds j (Pc.holds_of_bound hj)).1, hself]
    exact hbound j hj
  · by_cases hj : j = i
    · subst hj
      rw [hself] at ha h0
      exact .inl (hlast ha h0)
    · rw [hne hj] at ha h0
      exact .inr ⟨ha, h0, hdrop j hj⟩

theorem binds {s : Slot V} (ht : w.table.Touches i s t)
    (hh : s.holders = (w.table.slots i).holders + 1) (hmade : i < w.table.nextSlot)
    (hevs : ∀ j, pending j (w.log ++ evs) =
      if i = j then pending j w.log ++ [p] else pending j w.log)
    (hopened : ∀ q j c, .opened q j c ∉ evs)
    (hstay : (w.table.slots i).state = .awake → s.state = .awake)
    (hholds : ∀ j, pc'.holds j → j = i) (hbound : ∀ j, pc'.bound j → s.state = .awake)
    (hdrop : ∀ j, ¬ pc.dropping j) (hwatch : ∀ j, ¬ pc.watches j) :
    HolderInv (w.moved p caller t pc' evs) := by
  have hpend : pending i (w.log ++ evs) = pending i w.log ++ [p] := by rw [hevs, if_pos rfl]
  refine h.moved_slot hp hm hmap ht hmade (fun j hj => ?_) ?_ (fun q _ hq => ?_)
    (fun ha _ => hstay ha) (fun j hj => ⟨hholds j hj, ?_⟩) hbound (fun _ h0 => ?_) hopened
    (fun j _ => hdrop j) hwatch
  · rw [hevs, if_neg (Ne.symm hj)]
  · rw [hh, hpend, List.length_append, List.length_singleton, h.count i]
    omega
  · rw [hpend]
    exact List.mem_append_left _ hq
  · rw [hpend]
    exact List.mem_append_right _ (List.mem_singleton.mpr rfl)
  · rw [hh, h.count i] at h0
    omega

end Step

theorem finished_of_awake (h : HolderInv w) (ha : (w.table.slots i).state = .awake) :
    (w.table.slots i).finished = true := by
  rcases (h.mapped.owners.resting .awake ha).watched with hg | hk | hf
  · rw [show (w.view i).state = .awake from ha] at hg
    cases hg
  · cases hk
  · exact hf

theorem wakes (h : HolderInv w) (hp : w.procs p = some ⟨caller, .publishWake i⟩)
    (hm : Move (w.env p caller) w.table (.publishWake i) (w.table.publishWake i) (.finishBind i) [])
    (hmap : MappedInv (w.moved p caller (w.table.publishWake i) (.finishBind i) [])) :
    HolderInv (w.moved p caller (w.table.publishWake i) (.finishBind i) []) := by
  obtain ⟨_, _, _, hin⟩ := h.mapped.owners.meets hp (if_pos rfl)
  have hlog : w.log ++ [] = w.log := List.append_nil _
  refine h.moved_slot hp hm hmap (w.table.touches_publishWake i) hin.made (fun j _ => ?_) ?_
    (fun q _ hq => ?_) (fun _ _ => rfl) (fun j hj => ⟨hj, ?_⟩) (fun _ _ => rfl)
    (fun _ h0 => absurd h0 (h.holders_ne_zero hp rfl)) nofun (fun _ _ => id) fun _ => id
  · rw [hlog]
  · rw [hlog]
    exact h.count i
  · rw [hlog]
    exact hq
  · rw [hlog]
    exact h.holds p _ i hp rfl

theorem releases (h : HolderInv w) {err : Option OpenError}
    (hp : w.procs p = some ⟨caller, .release i err⟩)
    (hm : Move (w.env p caller) w.table (.release i err) (w.table.releaseHolder i)
      (.claimDrop i err) [.release p i])
    (hmap : MappedInv (w.moved p caller (w.table.releaseHolder i) (.claimDrop i err)
      [.release p i])) :
    HolderInv (w.moved p caller (w.table.releaseHolder i) (.claimDrop i err) [.release p i]) := by
  have hmem : p ∈ pending i w.log := h.holds p _ i hp rfl
  have hawake := h.bound p _ i hp rfl
  have hpend : pending i (w.log ++ [.release p i]) = (pending i w.log).erase p := by
    rw [pending_release, if_pos rfl]
  refine h.moved_slot hp hm hmap (w.table.touches_releaseHolder i)
    (h.mapped.owners.resting .awake hawake).made (fun j hj => ?_) ?_ (fun q hq hmemq => ?_)
    (fun ha _ => ha) (fun _ => False.elim) (fun _ => False.elim) (fun _ _ => rfl) (by simp)
    (fun _ _ => id) fun _ => id
  · rw [pending_release, if_neg (Ne.symm hj)]
  · have hcount := h.count i
    have hpos := List.length_pos_of_mem hmem
    rw [hpend, List.length_erase_of_mem hmem]
    dsimp only
    omega
  · rw [hpend]
    exact (List.mem_erase_of_ne hq).mpr hmemq

theorem claims (h : HolderInv w) {err : Option OpenError}
    (hp : w.procs p = some ⟨caller, .claimDrop i err⟩)
    (hm : Move (w.env p caller) w.table (.claimDrop i err) (w.table.enterBusy i)
      (.sleepCall i err) [])
    (hmap : MappedInv (w.moved p caller (w.table.enterBusy i) (.sleepCall i err) []))
    (hz : (w.table.slots i).holders = 0) (hawake : (w.table.slots i).state = .awake) :
    HolderInv (w.moved p caller (w.table.enterBusy i) (.sleepCall i err) []) := by
  have hlog : w.log ++ [] = w.log := List.append_nil _
  refine h.moved_slot hp hm hmap (w.table.touches_enterBusy i)
    (h.mapped.owners.resting .awake hawake).made (fun j _ => ?_) ?_ (fun q _ hq => ?_)
    (fun _ h0 => absurd hz h0) (fun _ => False.elim) (fun _ => False.elim) nofun nofun
    (fun _ hj => hj) fun _ => id
  · rw [hlog]
  · rw [hlog]
    exact h.count i
  · rw [hlog]
    exact hq

theorem move (h : HolderInv w) (hp : w.procs p = some ⟨caller, pc⟩)
    (hm : Move (w.env p caller) w.table pc t pc' evs)
    (hmap : MappedInv (w.moved p caller t pc' evs)) :
    HolderInv (w.moved p caller t pc' evs) := by
  have hno := h.mapped.noReset p _ hp
  cases hm' : hm with
  | bind _ _ hs =>
    exact h.binds hp hm hmap (w.table.touches_hold _) rfl (h.mapped.owners.resting .awake hs).made
      (fun j => pending_bind) (by simp) id (fun _ => id) (fun _ _ => hs) (fun _ => id)
      fun _ => id
  | wake _ _ hs =>
    exact h.binds hp hm hmap (w.table.touches_reclaim _) rfl
      (h.mapped.owners.resting .asleep hs).made (fun j => pending_bind) (by simp)
      (fun ha => by rw [hs] at ha; cases ha) (fun _ => id) (fun _ => False.elim) (fun _ => id)
      fun _ => id
  | @put i _ hooks =>
    have hstored : ∀ e ∈ [Event.stored i hooks], e.holdFree := by simp [Event.holdFree]
    obtain ⟨_, _, _, hin⟩ := h.mapped.owners.meets hp (if_pos rfl)
    refine h.binds hp hm hmap (w.table.touches_publishPut ..) rfl hin.made (fun j => ?_)
      (by simp) (fun _ => rfl) (fun _ => id) (fun _ _ => rfl) (fun _ => id) fun _ => id
    rw [List.append_cons, pending_bind, pending_of_holdFree hstored]
    rfl
  | publishWake => exact h.wakes hp hm hmap
  | @opened _ ctx _ i hc =>
    have hevs : ∀ {j}, pending j (w.log ++ [Event.opened p i ctx]) = pending j w.log := by
      intro j
      rw [pending_append]
      rfl
    refine h.moved hp hm hmap (fun j => ?_) h.unmade (fun q _ j hq => ?_) (fun j ha _ => ha)
      (fun j hj => ?_) (fun j hj => h.bound p _ j hp hj) (fun j ha h0 => Or.inr ⟨ha, h0, id⟩)
      (fun q j c hmem => ?_) (fun _ => False.elim)
    · exact (h.count j).trans (by rw [← hevs]; rfl)
    · exact hevs ▸ hq
    · exact hevs ▸ h.holds p _ j hp hj
    · injection List.mem_singleton.mp hmem with hq hj hctx
      subst hctx
      exact ⟨hq, congrArg Caller.ctx hc, hj⟩
  | release => exact h.releases hp hm hmap
  | dropClaim h0 hs => exact h.claims hp hm hmap h0 hs
  | @openedEnded _ _ i _ hfin | @pollEnded _ _ i _ hfin =>
    have hawake := h.bound p _ i hp rfl
    rw [h.finished_of_awake hawake] at hfin
    cases hfin
  | @dropStop i err _ hlast =>
    refine h.calm hp hm hmap rfl (fun _ => id) (fun _ => id) (fun j hj => ?_) (fun _ => Or.inl)
    obtain rfl : j = i := hj
    exact .inr hlast
  | @afterFunc _ ctx _ hc he | @watchDone _ ctx _ _ hc he =>
    refine h.calm hp hm hmap rfl (fun _ => id) (fun _ => id) (fun _ => Or.inl)
      (fun _ _ => Or.inr fun c hctx => ?_)
    have hc' : caller.ctx = some ctx := congrArg Caller.ctx hc
    rw [hc'] at hctx
    obtain rfl := Option.some.inj hctx
    exact Option.isSome_iff_ne_none.mp he
  | wakePanic =>
    exact h.calm hp hm hmap rfl (fun _ => False.elim) (fun _ => id) (fun _ => Or.inl)
      (fun _ => Or.inl)
  | retry _ hkey hs => exact absurd hs (h.mapped.mapping.live _ _ hkey)
  | @closed i after _ =>
    cases after with
    | reset => exact absurd trivial hno
    | _ =>
      exact h.calm hp hm hmap rfl (fun _ => id) (fun _ => id) (fun _ => Or.inl)
        (fun _ => Or.inl)
  | takeAll | resetDone | resetAwake | resetAsleep | resetSkip | resetSleepStart | resetSlept =>
    exact absurd trivial hno
  | _ =>
    exact h.calm hp hm hmap rfl (fun _ => id) (fun _ => id) (fun _ => Or.inl) (fun _ => Or.inl)

/-! ## Whole runs -/

theorem init (grace : ℤ) : HolderInv (World.init (V := V) grace) where
  mapped := .init grace
  count := fun _ => rfl
  unmade := fun _ _ => rfl
  holds := fun _ _ _ hp => absurd hp World.procs_init
  bound := fun _ _ _ hp => absurd hp World.procs_init
  last := nofun
  opened := nofun
  done := fun _ hc => absurd rfl hc
  unhooked := Precedes.nil

theorem spawned (h : HolderInv w) {w' : World V} (hmap : MappedInv w')
    (hslots : w'.table.slots = w.table.slots) (hnext : w'.table.nextSlot = w.table.nextSlot)
    (hctx : w'.ctxErr = w.ctxErr) (hlog : w'.log = w.log)
    (hprocs : w'.procs = update w.procs w.next (some ⟨caller, pc⟩))
    (hpc : ∀ i, ¬ pc.holds i) : HolderInv w' := by
  have hold : ∀ {q x}, w.procs q = some x → w'.procs q = some x :=
    fun hq => hprocs ▸ h.mapped.owners.procs_spawn hq
  have hback : ∀ {q x i}, w'.procs q = some x → x.pc.holds i → w.procs q = some x := by
    intro q x i hq hx
    rcases World.procs_update_back (hprocs ▸ hq) with rfl | hq
    · exact absurd hx (hpc i)
    · exact hq
  refine ⟨hmap, ?_, ?_, fun q x i hq hx => ?_, fun q x i hq hx => ?_, ?_, ?_, ?_, ?_⟩
  · rw [hslots, hlog]
    exact h.count
  · rw [hslots, hnext]
    exact h.unmade
  · rw [hlog]
    exact h.holds q x i (hback hq hx) hx
  · rw [hslots]
    exact h.bound q x i (hback hq (Pc.holds_of_bound hx)) hx
  · rw [hslots]
    intro i ha h0
    obtain ⟨q, x, hq, hx⟩ := h.last i ha h0
    exact ⟨q, x, hold hq, hx⟩
  · rw [hlog, hctx]
    intro q i c hmem hc
    obtain ⟨x, hq, hx⟩ := h.opened q i c hmem hc
    exact ⟨x, hold hq, hx⟩
  · rw [hlog, hctx]
    exact h.done
  · rw [hlog]
    exact h.unhooked

theorem cancels (h : HolderInv w) {ctx : ℕ} {err : String}
    (hmap : MappedInv (w.cancelled ctx err)) : HolderInv (w.cancelled ctx err) := by
  have hpend : ∀ i, pending i (w.log ++ [Event.ctxDone ctx]) = pending i w.log :=
    fun i => pending_of_holdFree (by simp [Event.holdFree])
  refine ⟨hmap, fun i => ?_, h.unmade, fun q x i hq hx => ?_, h.bound, h.last,
    fun q i c hmem hc => ?_,
    fun c hc => ?_, h.unhooked.snoc nofun⟩
  · exact (h.count i).trans (by rw [← hpend]; rfl)
  · exact (hpend i).symm ▸ h.holds q x i hq hx
  · have hc' : w.ctxErr c = none := by
      by_cases hcc : c = ctx
      · rw [show (w.cancelled ctx err).ctxErr c = some err from hcc ▸ update_self ..] at hc
        cases hc
      · exact (update_of_ne hcc ..).symm.trans hc
    rcases List.mem_append.mp hmem with hmem | hmem
    · exact h.opened q i c hmem hc'
    · simp at hmem
  · by_cases hcc : c = ctx
    · exact List.mem_append_right _ (List.mem_singleton.mpr (congrArg _ hcc))
    · refine List.mem_append_left _ (h.done c ?_)
      rwa [show (w.cancelled ctx err).ctxErr c = _ from update_of_ne hcc ..] at hc

theorem step {w' : World V} {a : Action V} (h : HolderInv w) (ha : a.isReset = false)
    (hs : w.step a = some w') : HolderInv w' := by
  have hmap := h.mapped.step ha hs
  cases World.step_cases hs with
  | openKey => exact h.spawned hmap rfl rfl rfl rfl rfl fun _ => id
  | cancel => exact h.cancels hmap
  | reset => cases ha
  | tick => exact ⟨hmap, h.count, h.unmade, h.holds, h.bound, h.last, h.opened, h.done, h.unhooked⟩
  | fire => exact h.spawned hmap rfl rfl rfl rfl rfl fun _ => id
  | run hp hm => exact h.move hp hm hmap

theorem of_run {grace : ℤ} {acts : List (Action V)} (hacts : ∀ a ∈ acts, a.isReset = false)
    (hrun : run World.step (World.init grace) acts = some w) : HolderInv w :=
  run_inv_along (fun _ _ _ h ha hs => h.step ha hs) (along_of_forall hacts _) (init grace) hrun

end HolderInv

/-- In every run without Reset a value is awake while somebody holds it, no hook
is called under a holder, and the count of holders is right. -/
theorem reclaim_holder_safety {grace : ℤ} {acts : List (Action V)} {w : World V}
    (hacts : ∀ a ∈ acts, a.isReset = false)
    (hrun : run World.step (World.init grace) acts = some w) : HolderSafety w := by
  have h := HolderInv.of_run hacts hrun
  refine ⟨fun p i c hmem hc => ?_, h.unhooked, h.count, fun i => ?_, h.last⟩
  · have hctx : w.ctxErr c = none := by
      by_contra hsome
      exact hc (h.done c hsome)
    obtain ⟨q, hq, _, hw⟩ := h.opened p i c hmem hctx
    have hawake := h.bound p q i hq (Pc.bound_of_watches hw)
    exact ⟨h.mapped.mapping.of_awake hawake, hawake⟩
  · rw [h.count i]
    exact Int.natCast_nonneg _

/-- Two Opens share a value and the first one's context ends. -/
def oneHolderLeft : List (Action Unit) :=
  createFor 0 0 "key" () Hooks.none ++ [Action.openKey "key" 1 false] ++ steps 1 3 ++
    [Action.cancel 0 "context canceled"] ++ steps 0 3

theorem reclaim_holder_safety_twoOpens : ∃ w : World Unit,
    run World.step (World.init 0) oneHolderLeft = some w ∧
    .opened 1 0 1 ∈ w.log ∧ .release 0 0 ∈ w.log ∧ (w.table.slots 0).holders = 1 ∧
    HolderSafety w :=
  ⟨_, rfl, by decide +kernel, by decide +kernel, by decide +kernel,
    @reclaim_holder_safety Unit 0 oneHolderLeft _ (by decide) rfl⟩

end MiddlewareUtils.Reclaim
