import MiddlewareUtils.Proofs.ReclaimKept
import MiddlewareUtils.Proofs.ReclaimReplay

/-!
# Create once per key

An Open that finds its key unmapped registers a slot before create runs, so
until the create is over the key maps to that slot and other Opens of the
key wait for it. Four things follow, and they are what a caller of Open
counts on.

No two creates of a key run at once. Every Open that returns a value returns
that of the slot it bound: the value is stored once, by the create
(`ValueInv`), an Open binds once, and it carries the value from its bind to
its return (`BindInv`). An Open that waited for a create that failed has not
left the slot since, finds the error there and returns it (`ParkInv`). And a
value that was created stays in someone's hands until it is closed, which is
`KeptInv`.
-/

namespace MiddlewareUtils.Reclaim

open Lib Function

variable {V : Type}

def Pc.unbound : Pc V → Bool
  | lookup | parked _ _ | createErrOf _ | createCall _ | createRun _ | publishPut _ _ _
  | createFailed _ _ => true
  | _ => false

def Pc.carries : Pc V → Option ℕ
  | wakeCall i | wakeRun i | publishWake i | finishBind i | dropWhenDone i => some i
  | _ => none

def Pc.turns : Pc V → Option ℕ
  | wakeCall i | wakeRun i | publishWake i | sleepCall i _ | sleepRun i _ | slept i _ => some i
  | _ => none

/-! ## Steps -/

section Steps

variable {env : Env} {t t' : Table V} {pc pc' : Pc V} {evs : List Event} {i : ℕ} {v : V}

theorem Pc.unbound_of_carries (h : pc.carries = some i) : pc.unbound = false := by
  cases pc with
  | wakeCall | wakeRun | publishWake | finishBind | dropWhenDone => rfl
  | _ => cases h

theorem Move.value_back (hm : Move env t pc t' pc' evs) (h : (t'.slots i).value = some v) :
    (t.slots i).value = some v ∨ ∃ hooks, pc = .publishPut i v hooks ∧ pc' = .finishBind i := by
  have hslot := hm.slot i
  generalize t'.slots i = s at hslot h
  cases hslot with
  | registered | closer => cases h
  | put =>
    obtain rfl := Option.some.inj h
    exact .inr ⟨_, rfl, rfl⟩
  | _ => exact .inl h

theorem Move.publishPut_back {hooks : Hooks} (hm : Move env t pc t' pc' evs)
    (h : pc' = .publishPut i v hooks) : pc = .createRun i := by
  cases hm with
  | created =>
    injection h with hi
    rw [hi]
  | @closed _ after _ => cases after <;> cases h
  | _ => cases h

theorem Move.rests_back {st : SlotState} {ph : Phase} (hm : Move env t pc t' pc' evs)
    (hr : Resting st ph) (h : (t'.slots i).state = st) :
    (t.slots i).state = st ∨ pc.turns = some i ∨ ∃ v hooks, pc = .publishPut i v hooks := by
  have hslot := hm.slot i
  generalize t'.slots i = s at hslot h
  cases hslot with
  | same | held | released | cleared => exact .inl h
  | put => exact .inr (Or.inr ⟨_, _, rfl⟩)
  | woken | settled | armed => exact .inr (Or.inl rfl)
  | _ => subst h; cases hr

theorem Move.turns_back (hm : Move env t pc t' pc' evs) (h : pc'.turns = some i) :
    pc.turns = some i ∨ ∃ st ph, Resting st ph ∧ (t.slots i).state = st := by
  cases hm with
  | wake _ _ hs =>
    obtain rfl := Option.some.inj h
    exact .inr ⟨_, _, .asleep, hs⟩
  | dropClaim _ hs =>
    obtain rfl := Option.some.inj h
    exact .inr ⟨_, _, .awake, hs⟩
  | wakeStart | woken | sleepStart | slept => exact .inl h
  | @closed _ after _ => cases after <;> cases h
  | _ => cases h

inductive BindStep (t : Table V) (p : ℕ) (pc pc' : Pc V) (evs : List Event) : Prop
  | quiet (hevs : ∀ q j, .bind q j ∉ evs) (hcar : ∀ i, pc'.carries = some i → pc.carries = some i)
      (hun : pc'.unbound = true → pc.unbound = true)
  | found {i : ℕ} (hevs : evs = [.bind p i]) (hpc : pc = .lookup)
      (hpc' : pc' = .finishBind i ∨ pc' = .wakeCall i)
      (hs : ∃ st ph, Resting st ph ∧ (t.slots i).state = st)
  | made {i : ℕ} {v : V} {hooks : Hooks} (hevs : evs = [.stored i hooks, .bind p i])
      (hpc : pc = .publishPut i v hooks) (hpc' : pc' = .finishBind i)

theorem bind_notMem_leave {p : ℕ} {err : Option OpenError} (q j : ℕ) :
    .bind q j ∉ leave p err := by
  cases err with
  | none => exact List.not_mem_nil
  | some e => exact fun h => nomatch List.mem_singleton.mp h

theorem Move.binds (hm : Move env t pc t' pc' evs) : BindStep t env.p pc pc' evs := by
  cases hm with
  | bind _ _ hs => exact .found rfl rfl (Or.inl rfl) ⟨_, _, .awake, hs⟩
  | wake _ _ hs => exact .found rfl rfl (Or.inr rfl) ⟨_, _, .asleep, hs⟩
  | put => exact .made rfl rfl rfl
  | wakeStart | woken | publishWake | keep => exact .quiet (by simp) (fun _ => id) nofun
  | create | park | retry | unpark | again | createStart | created | createFail =>
    exact .quiet (by simp) nofun fun _ => rfl
  | dropStop | expireSkip | closeFinal => exact .quiet bind_notMem_leave nofun nofun
  | parkGrace =>
    refine .quiet (fun q j h => ?_) nofun nofun
    exact bind_notMem_leave q j ((List.mem_cons.mp h).resolve_left nofun)
  | @closed _ after _ =>
    cases after with
    | unmap | reset => exact .quiet (by simp [AfterClose.left]) nofun nofun
    | finish =>
      refine .quiet (fun q j h => ?_) nofun nofun
      exact bind_notMem_leave q j ((List.mem_cons.mp h).resolve_left nofun)
  | _ => exact .quiet (by simp) nofun nofun

theorem Move.opened_back {q c : ℕ} (hm : Move env t pc t' pc' evs) (h : .opened q i c ∈ evs) :
    q = env.p ∧ pc = .dropWhenDone i ∧ pc'.carries = none ∧ pc'.unbound = false := by
  have hleave : ∀ {err}, .opened q i c ∉ leave env.p err := by
    intro err h
    cases err with
    | none => cases h
    | some e => cases List.mem_singleton.mp h
  cases hm with
  | openedEnded | opened =>
    injection List.mem_singleton.mp h with hq hi _
    subst hq hi
    exact ⟨rfl, rfl, rfl, rfl⟩
  | dropStop | expireSkip | closeFinal => exact absurd h hleave
  | parkGrace => exact absurd ((List.mem_cons.mp h).resolve_left nofun) hleave
  | @closed _ after _ =>
    have hleft := (List.mem_cons.mp h).resolve_left nofun
    cases after with
    | unmap | reset => cases hleft
    | finish => exact absurd hleft hleave
  | _ => simp at h

end Steps

/-! ## Values -/

structure ValueInv (s : Opens V) : Prop where
  faults : FaultInv s
  value : ∀ i v, (s.world.table.slots i).value = some v →
    i < s.world.table.nextSlot ∧ s.created i = some v
  empty : ∀ p q i, s.world.procs p = some q → q.pc.puts = some i →
    (s.world.table.slots i).value = none
  putting : ∀ p q i v hooks, s.world.procs p = some q → q.pc = .publishPut i v hooks →
    s.created i = some v ∧ s.value p = some v
  turning : ∀ p q i, s.world.procs p = some q → q.pc.turns = some i →
    ∃ v, (s.world.table.slots i).value = some v
  resting : ∀ i st ph, Resting st ph → (s.world.table.slots i).state = st →
    ∃ v, (s.world.table.slots i).value = some v

namespace ValueInv

variable {s : Opens V} {p : ℕ} {caller : Caller} {pc pc' : Pc V} {t : Table V}
  {evs : List Event} {i : ℕ} {v : V}

theorem noteValue_of_ne {q : ℕ} (hq : q ≠ p) : s.noteValue p t pc pc' q = s.value q := by
  unfold Opens.noteValue
  split
  · exact update_of_ne hq ..
  · exact update_of_ne hq ..
  · exact update_of_ne hq ..
  · rfl

theorem created_kept (hm : Move (s.world.env p caller) s.world.table pc t pc' evs)
    (hi : pc.puts ≠ some i) : s.noteCreated pc' i = s.created i := by
  cases hm with
  | created =>
    refine update_of_ne ?_ ..
    rintro rfl
    exact hi rfl
  | @closed _ after _ => cases after <;> rfl
  | _ => rfl

section Step

variable (h : ValueInv s) (hp : s.world.procs p = some ⟨caller, pc⟩)
  (hm : Move (s.world.env p caller) s.world.table pc t pc' evs)
include h hp hm

theorem value_kept (hv : (s.world.table.slots i).value = some v) : (t.slots i).value = some v := by
  rw [hm.value (h.value i v hv).1, hv]
  intro hfill
  have hputs : pc.puts = some i := by
    cases pc with
    | createCall | createRun | publishPut => exact hfill
    | _ => cases hfill
  rw [h.empty p _ i hp hputs] at hv
  cases hv

theorem value_move (hv : (t.slots i).value = some v) :
    i < t.nextSlot ∧ s.noteCreated pc' i = some v := by
  rcases hm.value_back hv with hold | ⟨hooks, rfl, rfl⟩
  · obtain ⟨hlt, hc⟩ := h.value i v hold
    refine ⟨hlt.trans_le hm.nextSlot_le, ?_⟩
    rw [created_kept hm, hc]
    intro hputs
    rw [h.empty p _ i hp hputs] at hold
    cases hold
  · have hc : (Pc.publishPut (V := V) i v hooks).claim i = some ⟨.busy, [.awake]⟩ := if_pos rfl
    obtain ⟨_, _, _, hin⟩ := h.faults.mapped.owners.meets hp hc
    exact ⟨hin.made.trans_le hm.nextSlot_le, (h.putting p _ i v hooks hp rfl).1⟩

theorem empty_move {q : ℕ} {x : Proc V} (hq : (s.world.moved p caller t pc' evs).procs q = some x)
    (hx : x.pc.puts = some i) : (t.slots i).value = none := by
  rcases World.procs_moved_back hq with ⟨rfl, rfl⟩ | ⟨hqp, hq⟩
  · rcases hm.puts_back hx with hold | rfl
    · rw [hm.puts_same hold hx]
      exact h.empty q _ i hp hold
    · by_contra hsome
      obtain ⟨v, hv⟩ := Option.ne_none_iff_exists'.mp hsome
      rcases hm.value_back hv with hold | ⟨hooks, _, rfl⟩
      · exact absurd (h.value _ v hold).1 (lt_irrefl _)
      · cases hx
  · obtain ⟨_, hc⟩ := Pc.claim_of_keepsBusy (Pc.keepsBusy_of_puts hx)
    obtain ⟨n, hn⟩ := h.faults.owned_kept hp hm hq hc hqp
    rw [hn]
    exact h.empty q x i hq hx

theorem putting_move {q : ℕ} {x : Proc V} {hooks : Hooks}
    (hq : (s.world.moved p caller t pc' evs).procs q = some x) (hx : x.pc = .publishPut i v hooks) :
    s.noteCreated pc' i = some v ∧ s.noteValue p t pc pc' q = some v := by
  rcases World.procs_moved_back hq with ⟨rfl, rfl⟩ | ⟨hqp, hq⟩
  · obtain rfl : pc' = _ := hx
    obtain rfl := hm.publishPut_back rfl
    exact ⟨update_self .., update_self ..⟩
  · rw [noteValue_of_ne hqp, created_kept hm]
    · exact h.putting q x i v hooks hq hx
    · intro hputs
      obtain ⟨_, hc⟩ := Pc.claim_of_keepsBusy (Pc.keepsBusy_of_puts hputs)
      have hc' : x.pc.claim i = some ⟨.busy, [.awake]⟩ := by
        rw [hx]
        exact if_pos rfl
      exact hqp (h.faults.mapped.owners.claim_unique hq hp hc' hc)

theorem turning_move {q : ℕ} {x : Proc V} (hq : (s.world.moved p caller t pc' evs).procs q = some x)
    (hx : x.pc.turns = some i) : ∃ v, (t.slots i).value = some v := by
  have hold : ∃ v, (s.world.table.slots i).value = some v := by
    rcases World.procs_moved_back hq with ⟨rfl, rfl⟩ | ⟨_, hq⟩
    · rcases hm.turns_back hx with hturn | ⟨st, ph, hr, hst⟩
      · exact h.turning q _ i hp hturn
      · exact h.resting i st ph hr hst
    · exact h.turning q x i hq hx
  exact hold.imp fun v hv => h.value_kept hp hm hv

theorem resting_move {st : SlotState} {ph : Phase} (hr : Resting st ph)
    (hst : (t.slots i).state = st) : ∃ v, (t.slots i).value = some v := by
  rcases hm.rests_back hr hst with hold | hturn | ⟨v, hooks, rfl⟩
  · exact (h.resting i st ph hr hold).imp fun v hv => h.value_kept hp hm hv
  · exact (h.turning p _ i hp hturn).imp fun v hv => h.value_kept hp hm hv
  · cases hm
    refine ⟨v, ?_⟩
    rw [(s.world.table.touches_publishPut ..).slots, update_self]

end Step

theorem init (grace : ℤ) : ValueInv (Opens.init (V := V) grace) where
  faults := .init grace
  value := nofun
  empty := fun _ _ _ hp => absurd hp World.procs_init
  putting := fun _ _ _ _ _ hp => absurd hp World.procs_init
  turning := fun _ _ _ hp => absurd hp World.procs_init
  resting := fun _ st ph hr hst => by
    obtain rfl : SlotState.gone = st := hst
    cases hr

theorem step {s' : Opens V} {a : Action V} (h : ValueInv s) (ha : a.isReset = false)
    (hs : s.step a = some s') : ValueInv s' := by
  have hf := h.faults.step ha hs
  cases Opens.step_cases hs with
  | @quiet _ w hw hrun =>
    have hq := h.faults.mapped.owners.quiet_step hw hrun
    refine ⟨hf, fun i v hv => ?_, fun q x i hx hi => ?_, fun q x i v hooks hx hi => ?_,
      fun q x i hx hi => ?_, fun i st ph hr hst => ?_⟩
    · rw [show _ = s.world.table.nextSlot from hq.nextSlot]
      exact h.value i v (hq.slots ▸ hv)
    · rw [show _ = s.world.table.slots from hq.slots]
      exact h.empty q x i (hq.proc ⟨rfl, rfl, fun _ => rfl⟩ hx hi) hi
    · have hputs : x.pc.puts = some i := by rw [hi]; rfl
      exact h.putting q x i v hooks (hq.proc ⟨rfl, rfl, fun _ => rfl⟩ hx hputs) hi
    · rw [show _ = s.world.table.slots from hq.slots]
      exact h.turning q x i (hq.proc ⟨rfl, rfl, fun _ => rfl⟩ hx hi) hi
    · rw [show _ = s.world.table.slots from hq.slots] at hst ⊢
      exact h.resting i st ph hr hst
  | run hw hp hm =>
    exact ⟨hf, fun _ _ => h.value_move hp hm, fun _ _ _ => h.empty_move hp hm,
      fun _ _ _ _ _ => h.putting_move hp hm, fun _ _ _ => h.turning_move hp hm,
      fun _ _ _ => h.resting_move hp hm⟩

end ValueInv

/-! ## Binds -/

structure BindInv (s : Opens V) : Prop where
  values : ValueInv s
  bound : ∀ p j, .bind p j ∈ s.world.log →
    ∃ q, s.world.procs p = some q ∧ q.pc.unbound = false
  carries : ∀ p q i, s.world.procs p = some q → q.pc.carries = some i →
    ∃ v, s.value p = some v ∧ (s.world.table.slots i).value = some v ∧
      ∀ j, .bind p j ∈ s.world.log ↔ j = i
  opened : ∀ p i c, .opened p i c ∈ s.world.log →
    (∃ v, s.returned p = some v ∧ (s.world.table.slots i).value = some v ∧
      ∀ j, .bind p j ∈ s.world.log ↔ j = i) ∧
    ∃ q, s.world.procs p = some q ∧ q.pc.unbound = false ∧ q.pc.carries = none

namespace BindInv

variable {s : Opens V} {p : ℕ} {caller : Caller} {pc pc' : Pc V} {t : Table V}
  {evs : List Event} {i : ℕ} {v : V}

theorem unbound_bind (h : BindInv s) (hp : s.world.procs p = some ⟨caller, pc⟩)
    (hun : pc.unbound = true) (j : ℕ) : .bind p j ∉ s.world.log := by
  intro hmem
  obtain ⟨q, hq, hb⟩ := h.bound p j hmem
  rw [hp] at hq
  obtain rfl := Option.some.inj hq
  rw [show pc.unbound = false from hb] at hun
  cases hun

theorem binds_kept (hp : s.world.procs p = some ⟨caller, pc⟩)
    (hm : Move (s.world.env p caller) s.world.table pc t pc' evs) {q : ℕ} {x : Proc V}
    (hq : s.world.procs q = some x) (hb : x.pc.unbound = false) (j : ℕ) :
    .bind q j ∈ s.world.log ++ evs ↔ .bind q j ∈ s.world.log := by
  rw [List.mem_append]
  refine or_iff_left fun hmem => ?_
  have hmine : q = p → pc.unbound = false := by
    rintro rfl
    rw [hp] at hq
    obtain rfl := Option.some.inj hq
    exact hb
  cases hm.binds with
  | quiet hevs => exact hevs q j hmem
  | found hevs hpc =>
    rw [hevs] at hmem
    injection List.mem_singleton.mp hmem with hqp
    have hun := hmine hqp
    rw [hpc] at hun
    cases hun
  | made hevs hpc =>
    rw [hevs] at hmem
    injection List.mem_singleton.mp ((List.mem_cons.mp hmem).resolve_left nofun) with hqp
    have hun := hmine hqp
    rw [hpc] at hun
    cases hun

theorem noteValue_of_bound (hm : Move (s.world.env p caller) s.world.table pc t pc' evs)
    (hun : pc.unbound = false) : s.noteValue p t pc pc' = s.value := by
  cases hm with
  | @closed _ after _ => cases after <;> rfl
  | _ => first | rfl | cases hun

section Step

variable (h : BindInv s) (hp : s.world.procs p = some ⟨caller, pc⟩)
  (hm : Move (s.world.env p caller) s.world.table pc t pc' evs)
include h hp hm

theorem bound_move {q j : ℕ} (hmem : .bind q j ∈ s.world.log ++ evs) :
    ∃ x, (s.world.moved p caller t pc' evs).procs q = some x ∧ x.pc.unbound = false := by
  by_cases hqp : q = p
  · subst hqp
    refine ⟨_, World.procs_moved_self, ?_⟩
    cases hm.binds with
    | quiet hevs _ hun =>
      have hold := (List.mem_append.mp hmem).resolve_right (hevs q j)
      by_contra hne
      exact h.unbound_bind hp (hun (eq_true_of_ne_false hne)) j hold
    | found _ _ hpc' => rcases hpc' with rfl | rfl <;> rfl
    | made _ _ hpc' => rw [hpc']; rfl
  · rw [World.procs_moved_of_ne hqp]
    refine h.bound q j ((List.mem_append.mp hmem).resolve_right fun hnew => ?_)
    cases hm.binds with
    | quiet hevs => exact hevs q j hnew
    | found hevs =>
      rw [hevs] at hnew
      injection List.mem_singleton.mp hnew with hq
      exact hqp hq
    | made hevs =>
      rw [hevs] at hnew
      injection List.mem_singleton.mp ((List.mem_cons.mp hnew).resolve_left nofun) with hq
      exact hqp hq

theorem carries_move {q : ℕ} {x : Proc V} (hq : (s.world.moved p caller t pc' evs).procs q = some x)
    (hx : x.pc.carries = some i) :
    ∃ v, s.noteValue p t pc pc' q = some v ∧ (t.slots i).value = some v ∧
      ∀ j, .bind q j ∈ s.world.log ++ evs ↔ j = i := by
  rcases World.procs_moved_back hq with ⟨rfl, rfl⟩ | ⟨hqp, hq⟩
  · cases hm.binds with
    | quiet hevs hcar _ =>
      have hold := hcar i hx
      obtain ⟨v, hv, hs, hb⟩ := h.carries q _ i hp hold
      have hun := Pc.unbound_of_carries hold
      refine ⟨v, ?_, h.values.value_kept hp hm hs, fun j => ?_⟩
      · rw [noteValue_of_bound hm hun, hv]
      · rw [binds_kept hp hm hp hun, hb]
    | @found j hevs hpc hpc' hs =>
      subst hpc
      obtain ⟨st, ph, hr, hst⟩ := hs
      obtain ⟨v, hv⟩ := h.values.resting j st ph hr hst
      have hv' := h.values.value_kept hp hm hv
      have hj : j = i := by rcases hpc' with rfl | rfl <;> exact Option.some.inj hx
      subst hj
      refine ⟨v, ?_, hv', fun k => ?_⟩
      · rcases hpc' with rfl | rfl <;> exact (update_self ..).trans hv'
      · rw [hevs, List.mem_append, or_iff_right (h.unbound_bind hp rfl k), List.mem_singleton]
        exact ⟨fun he => (Event.bind.inj he).2, fun he => he ▸ rfl⟩
    | @made j v hooks hevs hpc hpc' =>
      subst hpc hpc'
      obtain rfl := Option.some.inj hx
      refine ⟨v, (h.values.putting q _ j v hooks hp rfl).2, ?_, fun k => ?_⟩
      · cases hm
        rw [(s.world.table.touches_publishPut ..).slots, update_self]
      · rw [hevs, List.mem_append, or_iff_right (h.unbound_bind hp rfl k), List.mem_cons,
          or_iff_right nofun, List.mem_singleton]
        exact ⟨fun he => (Event.bind.inj he).2, fun he => he ▸ rfl⟩
  · obtain ⟨v, hv, hs, hb⟩ := h.carries q x i hq hx
    refine ⟨v, ?_, h.values.value_kept hp hm hs, fun j => ?_⟩
    · rw [ValueInv.noteValue_of_ne hqp, hv]
    · rw [binds_kept hp hm hq (Pc.unbound_of_carries hx), hb]

theorem opened_move {q c : ℕ} (hmem : .opened q i c ∈ s.world.log ++ evs) :
    (∃ v, s.noteReturned p pc q = some v ∧ (t.slots i).value = some v ∧
      ∀ j, .bind q j ∈ s.world.log ++ evs ↔ j = i) ∧
    ∃ x, (s.world.moved p caller t pc' evs).procs q = some x ∧ x.pc.unbound = false ∧
      x.pc.carries = none := by
  rcases List.mem_append.mp hmem with hold | hnew
  · obtain ⟨⟨v, hv, hs, hb⟩, x, hq, hun, hcar⟩ := h.opened q i c hold
    refine ⟨⟨v, ?_, h.values.value_kept hp hm hs, fun j => ?_⟩, ?_⟩
    · rw [← hv]
      unfold Opens.noteReturned
      split
      · refine update_of_ne ?_ ..
        rintro rfl
        rw [hp] at hq
        obtain rfl := Option.some.inj hq
        cases hcar
      · rfl
    · rw [binds_kept hp hm hq hun, hb]
    · by_cases hqp : q = p
      · subst hqp
        rw [hp] at hq
        obtain rfl := Option.some.inj hq
        refine ⟨_, World.procs_moved_self, ?_⟩
        cases hm.binds with
        | quiet _ hcar' hun' =>
          refine ⟨?_, Option.eq_none_iff_forall_ne_some.mpr fun j hj => ?_⟩
          · by_contra hne
            have := hun' (eq_true_of_ne_false hne)
            rw [show pc.unbound = false from hun] at this
            cases this
          · have := hcar' j hj
            rw [show pc.carries = none from hcar] at this
            cases this
        | found _ hpc => rw [hpc] at hun; cases hun
        | made _ hpc => rw [hpc] at hun; cases hun
      · exact ⟨x, (World.procs_moved_of_ne hqp).trans hq, hun, hcar⟩
  · obtain ⟨rfl, rfl, hcar, hun⟩ := hm.opened_back hnew
    obtain ⟨v, hv, hs, hb⟩ := h.carries _ _ i hp rfl
    refine ⟨⟨v, (update_self ..).trans hv, h.values.value_kept hp hm hs, fun j => ?_⟩, _,
      World.procs_moved_self, hun, hcar⟩
    rw [binds_kept hp hm hp rfl]
    exact hb j

end Step

theorem init (grace : ℤ) : BindInv (Opens.init (V := V) grace) where
  values := .init grace
  bound := nofun
  carries := fun _ _ _ hp => absurd hp World.procs_init
  opened := nofun

theorem step {s' : Opens V} {a : Action V} (h : BindInv s) (ha : a.isReset = false)
    (hs : s.step a = some s') : BindInv s' := by
  have hv := h.values.step ha hs
  cases Opens.step_cases hs with
  | @quiet _ w hw hrun =>
    have hq := h.values.faults.mapped.owners.quiet_step hw hrun
    refine ⟨hv, fun q j hmem => ?_, fun q x i hx hi => ?_, fun q i c hmem => ?_⟩
    · obtain ⟨x, hx, hun⟩ := h.bound q j ((hq.log (.bind q j) nofun).mp hmem)
      exact ⟨x, hq.kept q x hx, hun⟩
    · rw [show _ = s.world.table.slots from hq.slots]
      obtain ⟨v, hval, hs, hb⟩ :=
        h.carries q x i (hq.proc ⟨rfl, rfl, fun _ => rfl⟩ hx hi) hi
      exact ⟨v, hval, hs, fun j => (hq.log (.bind q j) nofun).trans (hb j)⟩
    · rw [show _ = s.world.table.slots from hq.slots]
      obtain ⟨⟨v, hret, hs, hb⟩, x, hx, hun, hcar⟩ :=
        h.opened q i c ((hq.log (.opened q i c) nofun).mp hmem)
      exact ⟨⟨v, hret, hs, fun j => (hq.log (.bind q j) nofun).trans (hb j)⟩, x, hq.kept q x hx,
        hun, hcar⟩
  | run hw hp hm =>
    exact ⟨hv, fun _ _ => h.bound_move hp hm, fun _ _ _ => h.carries_move hp hm,
      fun _ _ _ => h.opened_move hp hm⟩

end BindInv

/-! ## Waiting for a create -/

structure ParkInv (s : Opens V) : Prop where
  waits : WaitInv s
  made : ∀ p i r, s.waited p = some (i, r) → i < s.world.table.nextSlot
  /-- Whoever has waited for a slot that is being created waits for it now. -/
  stays : ∀ p q i, s.world.procs p = some q → q.pc.puts = some i → ∀ p' r,
    s.waited p' = some (i, r) → r = (s.world.table.slots i).ready ∧
      ∃ c, s.world.procs p' = some ⟨c, .parked i r⟩
  closed : ∀ i f, s.faults i = some f → f.hook = .create →
    (s.world.table.slots i).createErr = some f.err → s.world.table.chans f.ready ≠ 0
  replayed : ∀ p i r f, s.waited p = some (i, r) → s.faults i = some f → f.hook = .create →
    r = f.ready ∧ ∃ q, s.world.procs p = some q ∧
      (q.pc.awaits = some i ∨ q.pc = .finished ∧ .failed p f.err ∈ s.world.log)

namespace ParkInv

variable {s : Opens V} {p : ℕ} {caller : Caller} {pc pc' : Pc V} {t : Table V}
  {evs : List Event} {i : ℕ} {f : Fault}

theorem noteWait_cases {q r : ℕ} (h : s.noteWait p pc q = some (i, r)) :
    q = p ∧ pc = .parked i r ∨ (q = p → ∀ j r', pc ≠ .parked j r') ∧ s.waited q = some (i, r) := by
  by_cases hqp : q = p
  · subst hqp
    cases pc with
    | parked j r' =>
      rw [show s.noteWait q (.parked j r') q = some (j, r') from update_self ..] at h
      obtain ⟨rfl, rfl⟩ := Prod.mk.inj (Option.some.inj h)
      exact .inl ⟨rfl, rfl⟩
    | _ => exact .inr ⟨fun _ _ _ => nofun, h⟩
  · rw [Opens.noteWait_of_ne hqp] at h
    exact .inr ⟨fun he => absurd he hqp, h⟩

theorem made_move (h : ParkInv s) (hm : Move (s.world.env p caller) s.world.table pc t pc' evs)
    {q r : ℕ} (hw : s.noteWait p pc' q = some (i, r)) : i < t.nextSlot := by
  refine Nat.lt_of_lt_of_le ?_ hm.nextSlot_le
  rcases noteWait_cases hw with ⟨rfl, rfl⟩ | ⟨_, hw⟩
  · rcases hm.awaits_back rfl with ⟨_, _, _, key, hkey⟩ | ⟨_, _, hpc', _⟩
    · exact (h.waits.faults.mapped.mapping.keyed key i hkey).1
    · cases hpc'
  · exact h.made q i r hw

theorem parked_stuck (h : ParkInv s) (hp : s.world.procs p = some ⟨caller, .parked i r⟩)
    (hm : Move (s.world.env p caller) s.world.table (.parked i r) t pc' evs) {q : ℕ} {x : Proc V}
    (hq : s.world.procs q = some x) (hx : x.pc.puts = some i) : False := by
  cases hm with
  | unpark hopen =>
    injection h.waits.creating q x i hq hx p _ hp rfl with _ hr
    have howes : s.world.Owes q r :=
      ⟨x, hq, Or.inl ⟨i, Pc.keepsBusy_of_puts hx, hr.symm⟩⟩
    exact hopen (h.waits.faults.ready.owes_open howes).2

theorem fails_create {q : Proc V} {e : OpenError} (h : q.pc.fails = some (i, .create, e)) :
    q.pc = .createFailed i e := by
  obtain ⟨c, pc⟩ := q
  cases pc with
  | createFailed =>
    cases h
    rfl
  | panicked j createErr => cases createErr <;> cases h
  | _ => cases h

theorem stored_of_createErrOf (h : ParkInv s) (hp : s.world.procs p = some ⟨caller, .createErrOf i⟩)
    (hf : s.faults i = some f) (hk : f.hook = .create) :
    (s.world.table.slots i).createErr = some f.err := by
  refine (h.waits.faults.known i f hf).2.resolve_right ?_
  rintro ⟨q, hq, hfails⟩
  rw [hk] at hfails
  have hputs : q.pc.puts = some i := by
    rw [fails_create hfails]
    rfl
  cases h.waits.creating _ q i hq hputs p _ hp rfl

section Step

variable (h : ParkInv s) (hp : s.world.procs p = some ⟨caller, pc⟩)
  (hm : Move (s.world.env p caller) s.world.table pc t pc' evs)
include h hp hm

theorem stays_move {q q' r : ℕ} {x : Proc V}
    (hq : (s.world.moved p caller t pc' evs).procs q = some x) (hx : x.pc.puts = some i)
    (hw : s.noteWait p pc' q' = some (i, r)) :
    r = (t.slots i).ready ∧
      ∃ c, (s.world.moved p caller t pc' evs).procs q' = some ⟨c, .parked i r⟩ := by
  -- The creator was at it before, and the slot is as it was.
  have hold : ∃ y, s.world.procs q = some y ∧ y.pc.puts = some i ∧
      (t.slots i).ready = (s.world.table.slots i).ready := by
    rcases World.procs_moved_back hq with ⟨rfl, rfl⟩ | ⟨hqp, hq⟩
    · rcases hm.puts_back hx with hold | rfl
      · exact ⟨_, hp, hold, by rw [hm.puts_same hold hx]⟩
      · rcases noteWait_cases hw with ⟨_, rfl⟩ | ⟨_, hw⟩
        · cases hx
        · exact absurd (h.made _ _ _ hw) (lt_irrefl _)
    · obtain ⟨_, hc⟩ := Pc.claim_of_keepsBusy (Pc.keepsBusy_of_puts hx)
      obtain ⟨n, hn⟩ := h.waits.faults.owned_kept hp hm hq hc hqp
      exact ⟨x, hq, hx, by rw [hn]⟩
  obtain ⟨y, hy, hputs, hready⟩ := hold
  rw [hready]
  rcases noteWait_cases hw with ⟨rfl, rfl⟩ | ⟨_, hw⟩
  · rcases hm.awaits_back rfl with ⟨_, hpc', _⟩ | ⟨_, _, hpc', _⟩
    · injection hpc' with _ hr
      exact ⟨hr, caller, World.procs_moved_self⟩
    · cases hpc'
  · obtain ⟨hr, c, hc⟩ := h.stays q y i hy hputs q' r hw
    refine ⟨hr, c, (World.procs_moved_of_ne ?_).trans hc⟩
    rintro rfl
    rw [hp] at hc
    cases hc
    exact h.parked_stuck hp hm hy hputs

theorem closed_move (ho : OwnersInv (s.world.moved p caller t pc' evs))
    (hf : s.noteFault p t pc' i = some f) (hk : f.hook = .create)
    (he : (t.slots i).createErr = some f.err) : t.chans f.ready ≠ 0 := by
  have hfaults := h.waits.faults
  have hold : s.faults i = some f := by
    rwa [Opens.noteFault_of_ne] at hf
    intro hk' err hfail
    obtain ⟨_, hc⟩ := Pc.claim_of_fails hfail
    have hbusy : (t.slots i).state = .busy := (ho.meets World.procs_moved_self hc).1
    rw [(hfaults.stored_move hp hm ho he).1] at hbusy
    cases hbusy
  rcases hm.createErr_back he with hstored | ⟨⟨hk', hfails⟩, _⟩
  · exact (hfaults.ready.chanStep hp hm).closed_stays (h.closed i f hold hk hstored)
  · have hmine := hfaults.failing p _ i hk' f.err hp hfails
    rw [hold] at hmine
    obtain rfl : hk' = .create := by
      rw [← hk, Option.some.inj hmine]
    obtain rfl : pc = .createFailed i f.err := fails_create (q := ⟨caller, pc⟩) hfails
    cases hm
    rw [(Table.chans_endBusySlot ..).1, Option.some.inj hmine, update_self]
    exact Nat.succ_ne_zero _

theorem replayed_move {q r : ℕ} (hw : s.noteWait p pc' q = some (i, r))
    (hf : s.noteFault p t pc' i = some f) (hk : f.hook = .create) :
    r = f.ready ∧
      ∃ x, (s.world.moved p caller t pc' evs).procs q = some x ∧ (x.pc.awaits = some i ∨
        x.pc = .finished ∧ .failed q f.err ∈ s.world.log ++ evs) := by
  by_cases hnew : ∃ hk' err, pc'.fails = some (i, hk', err)
  · -- The create has just failed; everyone who waited for it is still parked.
    obtain ⟨hk', err, hfail⟩ := hnew
    rw [Opens.noteFault_self hfail] at hf
    obtain rfl := Option.some.inj hf
    obtain rfl : hk' = .create := hk
    obtain rfl : pc' = .createFailed i err := fails_create (q := ⟨caller, pc'⟩) hfail
    have hputs : pc.puts = some i := (hm.puts_back rfl).resolve_right fun hi => by
      subst hi
      rcases noteWait_cases hw with ⟨_, hpc⟩ | ⟨_, hw⟩
      · cases hpc
      · exact absurd (h.made _ _ _ hw) (lt_irrefl _)
    rcases noteWait_cases hw with ⟨_, hpc⟩ | ⟨_, hw⟩
    · cases hpc
    · obtain ⟨hr, c, hc⟩ := h.stays p _ i hp hputs q r hw
      refine ⟨hr.trans (by rw [hm.puts_same hputs rfl]), _, (World.procs_moved_of_ne ?_).trans hc,
        Or.inl rfl⟩
      rintro rfl
      rw [hp] at hc
      cases hc
      cases hputs
  · rw [Opens.noteFault_of_ne fun hk' err he => hnew ⟨hk', err, he⟩] at hf
    rcases noteWait_cases hw with ⟨rfl, rfl⟩ | ⟨hpc', hw⟩
    · refine ⟨?_, _, World.procs_moved_self, Or.inl rfl⟩
      rcases hm.awaits_back rfl with ⟨_, hpc', hbusy, _⟩ | ⟨_, _, hpc', _⟩
      · injection hpc' with _ hr
        rw [hr]
        rcases (h.waits.faults.known i f hf).2 with hstored | ⟨x, hx, hfails⟩
        · rw [(h.waits.faults.stored i _ hstored).1] at hbusy
          cases hbusy
        · have hmine := h.waits.faults.failing _ x i _ _ hx hfails
          rw [hf] at hmine
          exact (congrArg Fault.ready (Option.some.inj hmine)).symm
      · cases hpc'
    · obtain ⟨hr, x, hx, hdone⟩ := h.replayed q i r f hw hf hk
      refine ⟨hr, ?_⟩
      by_cases hqp : q = p
      · subst hqp
        rw [hp] at hx
        obtain rfl := Option.some.inj hx
        refine ⟨_, World.procs_moved_self, ?_⟩
        rcases hdone with hawaits | ⟨hfin, _⟩
        · cases pc with
          | parked j r' =>
            cases hm
            exact .inl hawaits
          | createErrOf j =>
            obtain rfl := Option.some.inj hawaits
            have hstored := h.stored_of_createErrOf hp hf hk
            cases hm with
            | replay he =>
              rw [hstored] at he
              obtain rfl := Option.some.inj he
              exact .inr ⟨rfl, List.mem_append_right _ List.mem_cons_self⟩
            | again he =>
              rw [hstored] at he
              cases he
          | _ => cases hawaits
        · obtain rfl : pc = .finished := hfin
          cases hm
      · refine ⟨x, (World.procs_moved_of_ne hqp).trans hx, hdone.imp id fun hd => ?_⟩
        exact ⟨hd.1, List.mem_append_left _ hd.2⟩

end Step

theorem init (grace : ℤ) : ParkInv (Opens.init (V := V) grace) where
  waits := .init grace
  made := nofun
  stays := fun _ _ _ hp => absurd hp World.procs_init
  closed := nofun
  replayed := nofun

theorem step {s' : Opens V} {a : Action V} (h : ParkInv s) (ha : a.isReset = false)
    (hs : s.step a = some s') : ParkInv s' := by
  have hwait := h.waits.step ha hs
  cases Opens.step_cases hs with
  | @quiet _ w hw hrun =>
    have hq := h.waits.faults.mapped.owners.quiet_step hw hrun
    refine ⟨hwait, fun q i r hr => ?_, fun q x i hx hi q' r hr => ?_, fun i f hf hk he => ?_,
      fun q i r f hr hf hk => ?_⟩
    · rw [show _ = s.world.table.nextSlot from hq.nextSlot]
      exact h.made q i r hr
    · rw [show _ = s.world.table.slots from hq.slots]
      obtain ⟨hr, c, hc⟩ :=
        h.stays q x i (hq.proc ⟨rfl, rfl, fun _ => rfl⟩ hx hi) hi q' r hr
      exact ⟨hr, c, hq.kept q' _ hc⟩
    · rw [show _ = s.world.table.chans from hq.chans]
      exact h.closed i f hf hk (hq.slots ▸ he)
    · obtain ⟨hr, x, hx, hdone⟩ := h.replayed q i r f hr hf hk
      exact ⟨hr, x, hq.kept q x hx,
        hdone.imp id fun hd => ⟨hd.1, (hq.log (.failed q f.err) nofun).mpr hd.2⟩⟩
  | run hw hp hm =>
    exact ⟨hwait, fun _ _ _ => h.made_move hm,
      fun _ _ _ hq hx _ _ hr => h.stays_move hp hm hq hx hr,
      fun _ _ => h.closed_move hp hm hwait.faults.mapped.owners,
      fun _ _ _ _ => h.replayed_move hp hm⟩

/-! ### The way to the error -/

theorem failed_of_createErrOf (hp : s.world.procs p = some ⟨caller, .createErrOf i⟩)
    {e : OpenError} (he : (s.world.table.slots i).createErr = some e) :
    ∃ s', s.step (.run p .none) = some s' ∧ .failed p e ∈ s'.world.log := by
  have hadv : advance (s.world.env p caller) s.world.table .none (.createErrOf i) =
      some (s.world.table, .finished, [.failed p e]) := by
    simp only [advance, he]
    rfl
  exact ⟨_, Opens.step_of_advance hp hadv, List.mem_append_right _ List.mem_cons_self⟩

theorem failed_of_stored (h : ParkInv s) {r : ℕ} (hw : s.waited p = some (i, r))
    (hf : s.faults i = some f) (hk : f.hook = .create)
    (he : (s.world.table.slots i).createErr = some f.err) :
    ∃ acts s', run Opens.step s acts = some s' ∧ .failed p f.err ∈ s'.world.log := by
  obtain ⟨rfl, ⟨caller, pc⟩, hp, hawaits | ⟨_, hdone⟩⟩ := h.replayed p i r f hw hf hk
  · cases pc with
    | createErrOf j =>
      obtain rfl := Option.some.inj hawaits
      obtain ⟨s', hs, hmem⟩ := failed_of_createErrOf hp he
      exact ⟨[.run p .none], s', run_of_step hs rfl, hmem⟩
    | parked j r' =>
      obtain rfl := Option.some.inj hawaits
      obtain ⟨_, r'', hw', hr'⟩ := h.waits.waits p _ j hp rfl
      rw [hw] at hw'
      obtain rfl : r' = f.ready :=
        (hr' r' rfl).trans (congrArg Prod.snd (Option.some.inj hw')).symm
      have hadv : advance (s.world.env p caller) s.world.table .none (.parked j f.ready) =
          some (s.world.table, .createErrOf j, []) := if_neg (h.closed j f hf hk he)
      have hs := Opens.step_of_advance hp hadv
      obtain ⟨s', hs', hmem⟩ := failed_of_createErrOf
        (s := s.note (s.world.moved p caller s.world.table (.createErrOf j) []) p _ _)
        World.procs_moved_self he
      exact ⟨[.run p .none, .run p .none], s', run_of_step hs (run_of_step hs' rfl), hmem⟩
    | _ => cases hawaits
  · exact ⟨[], s, rfl, hdone⟩

theorem failed_of_fault (h : ParkInv s) {r : ℕ} (hw : s.waited p = some (i, r))
    (hf : s.faults i = some f) (hk : f.hook = .create) :
    ∃ acts s', run Opens.step s acts = some s' ∧ .failed p f.err ∈ s'.world.log := by
  rcases (h.waits.faults.known i f hf).2 with hstored | ⟨⟨caller, pc⟩, hq, hfails⟩
  · exact h.failed_of_stored hw hf hk hstored
  · -- The Open that ran create has yet to end the slot.
    rw [hk] at hfails
    obtain rfl : pc = .createFailed i f.err := fails_create hfails
    have hs : s.step (.run _ .none) = _ := Opens.step_of_advance hq rfl
    have hstored : ((s.world.table.endBusySlot i (some f.err)).slots i).createErr = some f.err := by
      rw [(s.world.table.touches_endBusySlot ..).slots, update_self]
    obtain ⟨acts, s', hacts, hmem⟩ := (h.step rfl hs).failed_of_stored hw hf hk hstored
    exact ⟨_ :: acts, s', run_of_step hs hacts, hmem⟩

end ParkInv

/-! ## The contract -/

/-- What callers of Open count on. A create is in flight while its process
`puts`. -/
structure CreateOnce (s : Opens V) : Prop where
  alone : ∀ p p' q q' i i', s.world.procs p = some q → s.world.procs p' = some q' →
    q.pc.puts = some i → q'.pc.puts = some i' →
    (s.world.table.slots i).key = (s.world.table.slots i').key → p = p'
  /-- While a create of a key is in flight, the key maps to its slot. -/
  mapped : ∀ p q i, s.world.procs p = some q → q.pc.puts = some i →
    s.world.table.items (s.world.table.slots i).key = some i
  /-- No create starts while something is mapped. -/
  starts : ∀ p q key ctx polls inp s' q' i, s.world.procs p = some q →
    q.caller = .opener key ctx polls → q.pc.puts = none → s.step (.run p inp) = some s' →
    s'.world.procs p = some q' → q'.pc.puts = some i → s.world.table.items key = none
  returns : ∀ p i c, .opened p i c ∈ s.world.log →
    ∃ v, s.returned p = some v ∧ s.created i = some v ∧ (s.world.table.slots i).value = some v ∧
      ∀ j, .bind p j ∈ s.world.log ↔ j = i
  same : ∀ p p' i c c', .opened p i c ∈ s.world.log → .opened p' i c' ∈ s.world.log →
    s.returned p = s.returned p'
  /-- An Open that waited for a create that failed is on its way to its
  error, without a create of its own, or has returned it. -/
  replays : ∀ p i r f, s.waited p = some (i, r) → s.faults i = some f → f.hook = .create →
    r = f.ready ∧ (∃ q, s.world.procs p = some q ∧
      (q.pc.awaits = some i ∨ q.pc = .finished ∧ .failed p f.err ∈ s.world.log)) ∧
    ∃ acts s', run Opens.step s acts = some s' ∧ .failed p f.err ∈ s'.world.log
  kept : ∀ i, ⟨.create, .returned⟩ ∈ calls i s.world.log →
    (∀ c ∈ calls i s.world.log, c.hook ≠ .close) → Kept s.world i

theorem Move.starts {env : Env} {t t' : Table V} {pc pc' : Pc V} {evs : List Event} {i : ℕ}
    {key : String} {ctx : ℕ} {polls : Bool} (hm : Move env t pc t' pc' evs)
    (hc : env.caller = .opener key ctx polls) (hpc : pc.puts = none) (hpc' : pc'.puts = some i) :
    t.items key = none := by
  cases hm with
  | create hcaller hkey =>
    rw [hc] at hcaller
    cases hcaller
    exact hkey
  | createStart | created | createFail => cases hpc
  | @closed _ after _ => cases after <;> cases hpc'
  | _ => cases hpc'

theorem WaitInv.puts_mapped {s : Opens V} (h : WaitInv s) {p i : ℕ} {q : Proc V}
    (hp : s.world.procs p = some q) (hq : q.pc.puts = some i) :
    s.world.table.items (s.world.table.slots i).key = some i := by
  obtain ⟨_, hc⟩ := Pc.claim_of_keepsBusy (Pc.keepsBusy_of_puts hq)
  exact h.faults.mapped.busy hp hc

/-- Without Reset, in every run: a key has one create in flight at most, and all
Opens that share an incarnation return the value its create made. -/
theorem create_once {grace : ℤ} {acts : List (Action V)} {s : Opens V}
    (hacts : ∀ a ∈ acts, a.isReset = false)
    (hrun : run Opens.step (Opens.init grace) acts = some s) : CreateOnce s := by
  have halong : Along Opens.step (fun _ a => a.isReset = false) (Opens.init grace) acts :=
    along_of_forall hacts _
  have hbind : BindInv s := run_inv_along (fun _ _ _ h ha hs => h.step ha hs) halong
    (.init grace) hrun
  have hpark : ParkInv s := run_inv_along (fun _ _ _ h ha hs => h.step ha hs) halong
    (.init grace) hrun
  have hreturns : ∀ p i c, .opened p i c ∈ s.world.log → ∃ v, s.returned p = some v ∧
      s.created i = some v ∧ (s.world.table.slots i).value = some v ∧
      ∀ j, .bind p j ∈ s.world.log ↔ j = i := by
    intro p i c hmem
    obtain ⟨⟨v, hret, hv, hb⟩, _⟩ := hbind.opened p i c hmem
    exact ⟨v, hret, (hbind.values.value i v hv).2, hv, hb⟩
  have hstep : ∀ (v : Opens V) a v', KeptInv v.world → a.isReset = false → v.step a = some v' →
      KeptInv v'.world := fun _ _ _ h ha hs => h.step ha (Opens.world_of_step hs)
  have hkept : KeptInv s.world := run_inv_along hstep halong (.init grace) hrun
  refine ⟨fun p p' q q' i i' hp hp' hq hq' hkey => ?_, fun _ _ _ => hpark.waits.puts_mapped,
    fun p q key ctx polls inp s' q' i hp hc hq hs hp' hq' => ?_, hreturns,
    fun p p' i c c' hp hp' => ?_, fun p i r f hw hf hk => ?_, fun _ => hkept.kept⟩
  · have hi := hpark.waits.puts_mapped hp hq
    rw [hkey, hpark.waits.puts_mapped hp' hq'] at hi
    obtain rfl := Option.some.inj hi
    obtain ⟨_, hown⟩ := Pc.claim_of_keepsBusy (Pc.keepsBusy_of_puts hq)
    obtain ⟨_, hown'⟩ := Pc.claim_of_keepsBusy (Pc.keepsBusy_of_puts hq')
    exact hpark.waits.faults.mapped.owners.claim_unique hp hp' hown hown'
  · cases Opens.step_cases hs with
    | quiet _ hne => exact absurd rfl (hne p inp)
    | run _ hp₁ hm =>
      rw [hp] at hp₁
      obtain rfl := Option.some.inj hp₁
      obtain rfl := Option.some.inj (World.procs_moved_self.symm.trans hp')
      exact hm.starts hc hq hq'
  · obtain ⟨v, hret, hv, _⟩ := hreturns p i c hp
    obtain ⟨v', hret', hv', _⟩ := hreturns p' i c' hp'
    rw [hret, hret', ← hv, ← hv']
  · obtain ⟨hr, hwhere⟩ := hpark.replayed p i r f hw hf hk
    exact ⟨hr, hwhere, hpark.failed_of_fault hw hf hk⟩

/-- Open 1 waits for the create of Open 0, which panics, and creates nothing.
Open 2 creates anew, and Open 3 binds what it made. -/
def panicThenCreate : List (Action ℕ) :=
  [Action.openKey "key" 0 false] ++ steps 0 2 ++ [Action.openKey "key" 1 false] ++ steps 1 1 ++
    [Action.run 0 (.panicked "boom")] ++ steps 0 1 ++ steps 1 2 ++
    createFor 2 2 "key" 7 Hooks.none ++ [Action.openKey "key" 3 false] ++ steps 3 3

theorem create_once_panicThenCreate : ∃ s : Opens ℕ,
    run Opens.step (Opens.init 5) panicThenCreate = some s ∧
    .failed 1 (.createPanic "key" "boom") ∈ s.world.log ∧ s.returned 2 = some 7 ∧
    s.returned 3 = some 7 ∧ CreateOnce s :=
  ⟨_, rfl, by decide +kernel, by decide +kernel, by decide +kernel,
    @create_once ℕ 5 panicThenCreate _ (by decide) rfl⟩

end MiddlewareUtils.Reclaim
