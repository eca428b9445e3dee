import MiddlewareUtils.Proofs.ReclaimReady

/-!
# The busy/ready protocol

What a slot's owners and waiters can rely on, in one place: a slot is busy
while its `ready` is open, one process owns each busy period and closes that
`ready`, every channel is closed once, no mapped slot has ended, and whoever
waits, waits for a channel that is closed or that someone still closes.

`ReadyInv` is most of it. The owner of a channel never waits itself, so it
can run on to the close (`Pc.duty` bounds the steps). A slot's `finished` is
made with the slot and closed with its end, which no slot survives; the
closers have none.

The map is where Reset matters. It unmaps slots of any state and ends the
resting ones later, so a slot it has taken must not be mapped again in
between. The one function that maps a slot which existed before is
`publishPut`. A Reset that takes the map while an Open is creating a mapped
value is therefore excluded (`ResetApart`); Resets at any other time,
several at once included, are not.
-/

namespace MiddlewareUtils.Reclaim

open Lib Function

variable {V : Type}

def Pc.takesAll : Pc V → Bool
  | takeAll => true
  | _ => false

/-- No Reset takes the map while an Open is creating a value that is mapped. -/
def ResetApart (w : World V) : Action V → Prop
  | .run p _ => ∀ x ∈ w.procs p, x.pc.takesAll = true →
      ∀ q < w.next, ∀ y ∈ w.procs q, ∀ i ∈ y.pc.fills,
        w.table.items (w.table.slots i).key ≠ some i
  | _ => True

instance (w : World V) : (a : Action V) → Decidable (ResetApart w a)
  | .run p _ => inferInstanceAs (Decidable (∀ x ∈ w.procs p, x.pc.takesAll = true →
      ∀ q < w.next, ∀ y ∈ w.procs q, ∀ i ∈ y.pc.fills,
        w.table.items (w.table.slots i).key ≠ some i))
  | .openKey .. | .cancel .. | .reset | .tick _ | .fire _ => isTrue trivial

/-! ## The `finished` channels, counted -/

/-- The world with the number of `finished` channels made for each slot, and
how many of them were closed. -/
structure Finishes (V : Type) where
  world : World V
  made : ℕ → ℕ
  closed : ℕ → ℕ

namespace Finishes

def init (grace : ℤ) : Finishes V := ⟨.init grace, fun _ => 0, fun _ => 0⟩

def step (s : Finishes V) (a : Action V) : Option (Finishes V) :=
  (s.world.step a).map fun w =>
    { world := w
      made := fun i => s.made i +
        if (s.world.table.slots i).finished = false ∧ (w.table.slots i).finished = true then 1
        else 0
      closed := fun i => s.closed i +
        if (s.world.table.slots i).finished = true ∧ (w.table.slots i).finished = false then 1
        else 0 }

end Finishes

/-- When `ready` and `finished` are closed, and by whom. -/
structure ReadyProtocol (s : Finishes V) : Prop where
  /-- Busy exactly while `ready` is open, up to the step between leaving busy
  and the close. -/
  busy : ∀ i, (s.world.table.slots i).state = .busy →
    s.world.table.chans (s.world.table.slots i).ready = 0
  idle : ∀ i < s.world.table.nextSlot, (s.world.table.slots i).state ≠ .busy →
    s.world.table.chans (s.world.table.slots i).ready = 1 ∨
      ∃ p q, s.world.procs p = some q ∧ q.pc.toClose = some (s.world.table.slots i).ready
  owner : ∀ i, (s.world.table.slots i).state = .busy →
    ∃! p, ∃ q, s.world.procs p = some q ∧ q.pc.keepsBusy = some i
  /-- A channel is closed once and owed by nobody, or open and owed by one. -/
  once : ∀ c < s.world.table.nextChan,
    s.world.table.chans c = 1 ∧ (∀ p, ¬ s.world.Owes p c) ∨
      s.world.table.chans c = 0 ∧ ∃! p, s.world.Owes p c
  /-- The owner can close it without waiting for anyone. -/
  closes : ∀ p c, s.world.Owes p c → ∃ acts s',
    Along Finishes.step (fun _ a => ∃ inp, a = .run p inp) s acts ∧
      run Finishes.step s acts = some s' ∧ s'.world.table.chans c = 1
  finished : ∀ i, s.made i ≤ 1 ∧ s.closed i ≤ s.made i ∧
    ((s.world.table.slots i).state = .gone → s.closed i = s.made i)
  mapped : ∀ k i, s.world.table.items k = some i → (s.world.table.slots i).state ≠ .gone
  parked : ∀ p q c, s.world.procs p = some q → q.pc.parkedOn = some c →
    s.world.table.chans c = 1 ∨ ∃ p', s.world.Owes p' c

/-! ## The map under Reset -/

def Pc.toReset : Pc V → List ℕ
  | resetNext rest | resetSleepCall _ rest | resetSleepRun _ rest
  | closeCall _ (.reset rest) | closeRun _ (.reset rest) => rest
  | _ => []

structure ResetInv (w : World V) : Prop where
  owners : OwnersInv w
  keyed : ∀ k i, w.table.items k = some i → i < w.table.nextSlot ∧ (w.table.slots i).key = k
  live : ∀ k i, w.table.items k = some i → (w.table.slots i).state ≠ .gone
  taken : ∀ p q i, w.procs p = some q → i ∈ q.pc.toReset → i < w.table.nextSlot ∧
    (∀ k, w.table.items k ≠ some i) ∧ ∀ p' q', w.procs p' = some q' → q'.pc.fills ≠ some i

section Map

variable {env : Env} {t t' : Table V} {pc pc' : Pc V} {evs : List Event} {i j : ℕ} {k : String}

theorem Table.items_of_forget {key : String}
    (h : update t.items key none k = some i) : t.items k = some i := by
  by_cases hk : k = key
  · rw [hk, update_self] at h
    cases h
  · rwa [update_of_ne hk] at h

theorem Table.items_of_unmap (h : (t.unmap j).items k = some i) : t.items k = some i := by
  unfold Table.unmap at h
  split at h
  · exact Table.items_of_forget h
  · exact h

theorem Table.items_unmap_ne (hkey : ∀ k, t.items k = some j → (t.slots j).key = k) :
    (t.unmap j).items k ≠ some j := by
  intro h
  have hmap := Table.items_of_unmap h
  obtain rfl := hkey k hmap
  unfold Table.unmap at h
  rw [if_pos hmap] at h
  have hnone : update t.items (t.slots j).key none (t.slots j).key = some j := h
  rw [update_self] at hnone
  cases hnone

theorem Move.items_back (hm : Move env t pc t' pc' evs) (h : t'.items k = some i) :
    t.items k = some i ∨ (i = t.nextSlot ∨ pc.fills = some i) ∧
      (t'.slots i).state ≠ .gone ∧ (t'.slots i).key = k := by
  have hmaps : ∀ {key : String} {j : ℕ}, update t.items key (some j) k = some i →
      t.items k = some i ∨ i = j ∧ k = key := by
    intro key j hup
    by_cases hk : k = key
    · rw [hk, update_self] at hup
      exact .inr ⟨(Option.some.inj hup).symm, hk⟩
    · exact .inl ((update_of_ne hk ..).symm.trans hup)
  cases hm with
  | create =>
    refine (hmaps h).imp id fun ⟨hi, hk⟩ => ?_
    rw [hi, show (t.register _).slots t.nextSlot = _ from update_self ..]
    exact ⟨Or.inl rfl, nofun, hk.symm⟩
  | swap =>
    refine (hmaps h).imp id fun ⟨hi, hk⟩ => ?_
    rw [hi, show (t.installCloser _ _).slots t.nextSlot = _ from update_self ..]
    exact ⟨Or.inl rfl, nofun, hk.symm⟩
  | put =>
    refine (hmaps h).imp id fun ⟨hi, hk⟩ => ?_
    rw [hi, (t.touches_publishPut ..).slots, update_self]
    exact ⟨Or.inr rfl, nofun, hk.symm⟩
  | wake => exact .inl (t.items_stopTimer _ ▸ h)
  | retry | parkZero => exact .inl (Table.items_of_forget h)
  | @putFailed j err => exact .inl (Table.items_of_unmap (t := t.endWith j (some err)) h)
  | @abort j createErr => exact .inl (Table.items_of_unmap (t := t.endWith j createErr) h)
  | @expireDispose j => exact .inl (Table.items_of_unmap (t := t.endSlot j) h)
  | unmapClosed => exact .inl (Table.items_of_unmap h)
  | takeAll => cases h
  | _ => exact .inl h

theorem Move.gone_mapped (hm : Move env t pc t' pc' evs)
    (hkeyed : ∀ k i, t.items k = some i → i < t.nextSlot ∧ (t.slots i).key = k)
    (h : t'.items k = some i) (hg : (t'.slots i).state = .gone) :
    (t.slots i).state = .gone ∨ i ∈ pc.toReset := by
  have hold : t.items k = some i := (hm.items_back h).resolve_right fun hnew => hnew.2.1 hg
  -- The slot a step ends keeps its key.
  have hsame : ∀ {j : ℕ} {s : Slot V}, s.key = (t.slots j).key → ∀ k, t.items k = some j →
      (update t.slots j s j).key = k := by
    intro j s hs k hk
    rw [update_self, hs]
    exact (hkeyed k j hk).2
  have hslot := hm.slot i
  generalize t'.slots i = s at hslot hg
  cases hslot with
  | same | held | released => exact .inl hg
  | @failed err =>
    cases hm with
    | putFailed => exact absurd h ((t.endWith i (some err)).items_unmap_ne (hsame rfl))
  | @broke createErr =>
    cases hm with
    | swap =>
      by_cases hk : k = (t.slots i).key
      · have hnew : update t.items (t.slots i).key (some t.nextSlot) k = some i := h
        rw [hk, update_self] at hnew
        exact absurd (Option.some.inj hnew) (hkeyed k i hold).1.ne'
      · exact absurd (hkeyed k i hold).2.symm hk
    | abort => exact absurd h ((t.endWith i createErr).items_unmap_ne (hsame rfl))
  | disposed =>
    cases hm with
    | expireDispose => exact absurd h ((t.endSlot i).items_unmap_ne (hsame rfl))
  | unmapped =>
    cases hm with
    | unmapClosed => exact absurd h (t.items_unmap_ne fun k hk => (hkeyed k i hk).2)
  | cleared =>
    cases hm with
    | takeAll => cases h
  | reset => exact .inr List.mem_cons_self
  | _ => cases hg

theorem Move.toReset_back (hm : Move env t pc t' pc' evs) (h : i ∈ pc'.toReset) :
    i ∈ pc.toReset ∨ pc.takesAll = true ∧ i < t.nextSlot ∧ t.items (t.slots i).key = some i := by
  cases hm with
  | @takeAll slots hperm =>
    have hmem : i ∈ t.mapped := (List.isPerm_iff.mp hperm).mem_iff.mp h
    rw [Table.mapped, List.mem_filter, List.mem_range, decide_eq_true_iff] at hmem
    exact .inr ⟨rfl, hmem⟩
  | resetAwake | resetAsleep | resetSkip => exact .inl (List.mem_cons_of_mem _ h)
  | resetSleepStart | resetSlept => exact .inl h
  | @closeStart _ after => cases after with
      | reset => exact .inl h
      | unmap | finish => cases h
  | @closed _ after _ => cases after with
      | reset => exact .inl h
      | unmap | finish => cases h
  | _ => cases h

end Map

namespace ResetInv

variable {w : World V} {p : ℕ} {caller : Caller} {pc pc' : Pc V} {t : Table V}
  {evs : List Event} {i : ℕ}

theorem next_of_proc (h : ResetInv w) {q : Proc V} (hp : w.procs p = some q) : p < w.next := by
  by_contra hge
  rw [h.owners.unborn p (Nat.not_lt.mp hge)] at hp
  cases hp

theorem move (h : ResetInv w) {inp : Input V} (hp : w.procs p = some ⟨caller, pc⟩)
    (hm : Move (w.env p caller) w.table pc t pc' evs)
    (ho : OwnersInv (w.moved p caller t pc' evs)) (hap : ResetApart w (.run p inp)) :
    ResetInv (w.moved p caller t pc' evs) := by
  -- Nobody begins to fill a slot that exists.
  have hfills : ∀ {q x i}, (w.moved p caller t pc' evs).procs q = some x → x.pc.fills = some i →
      i < w.table.nextSlot → ∃ q' y, w.procs q' = some y ∧ y.pc.fills = some i := by
    intro q x i hx hi hlt
    rcases World.procs_moved_back hx with ⟨rfl, rfl⟩ | ⟨hq, hx⟩
    · exact ⟨q, _, hp, (hm.fills_back hi).resolve_right hlt.ne⟩
    · exact ⟨q, x, hx, hi⟩
  -- A slot that is unmapped and not being filled stays unmapped.
  have hstays : ∀ {i}, i < w.table.nextSlot → (∀ k, w.table.items k ≠ some i) →
      pc.fills ≠ some i → ∀ k, t.items k ≠ some i := by
    intro i hlt hun hfill k hk
    rcases hm.items_back hk with hold | ⟨hnew | hput, _⟩
    · exact hun k hold
    · exact hlt.ne hnew
    · exact hfill hput
  have hkept : ∀ {i}, i < w.table.nextSlot → (∀ k, w.table.items k ≠ some i) →
      (∀ q y, w.procs q = some y → y.pc.fills ≠ some i) →
      i < t.nextSlot ∧ (∀ k, t.items k ≠ some i) ∧
        ∀ q x, (w.moved p caller t pc' evs).procs q = some x → x.pc.fills ≠ some i := by
    intro i hlt hun hfill
    refine ⟨hlt.trans_le hm.nextSlot_le, hstays hlt hun (hfill p _ hp), fun q x hx hi => ?_⟩
    obtain ⟨q', y, hy, hyi⟩ := hfills hx hi hlt
    exact hfill q' y hy hyi
  refine ⟨ho, fun k i hk => ?_, fun k i hk hg => ?_, fun q x i hx hi => ?_⟩
  · rcases hm.items_back hk with hold | ⟨hnew, hst, hkey⟩
    · obtain ⟨hlt, hkey⟩ := h.keyed k i hold
      exact ⟨hlt.trans_le hm.nextSlot_le, (hm.key_eq hlt).trans hkey⟩
    · refine ⟨?_, hkey⟩
      by_contra hge
      exact hst (ho.unmade (Nat.not_lt.mp hge)).1
  · rcases hm.gone_mapped h.keyed hk hg with hold | hreset
    · rcases hm.items_back hk with hk' | ⟨_, hst, _⟩
      · exact h.live k i hk' hold
      · exact hst hg
    · obtain ⟨hlt, hun, hfill⟩ := h.taken p _ i hp hreset
      exact hstays hlt hun (hfill p _ hp) k hk
  · rcases World.procs_moved_back hx with ⟨rfl, rfl⟩ | ⟨hq, hx⟩
    · rcases hm.toReset_back hi with hold | ⟨htakes, hlt, hmapped⟩
      · obtain ⟨hlt, hun, hfill⟩ := h.taken q _ i hp hold
        exact hkept hlt hun hfill
      · -- The map is empty now, and the taken slots were not being filled.
        have hfill : ∀ q y, w.procs q = some y → y.pc.fills ≠ some i := fun q y hy hyi =>
          hap _ hp htakes q (h.next_of_proc hy) y hy i hyi hmapped
        have hempty : ∀ k, t.items k ≠ some i := by
          cases hm with
          | takeAll => exact nofun
          | _ => cases htakes
        refine ⟨hlt.trans_le hm.nextSlot_le, hempty, fun q' x hx hi => ?_⟩
        obtain ⟨q'', y, hy, hyi⟩ := hfills hx hi hlt
        exact hfill q'' y hy hyi
    · obtain ⟨hlt, hun, hfill⟩ := h.taken q x i hx hi
      exact hkept hlt hun hfill

theorem init (grace : ℤ) : ResetInv (World.init (V := V) grace) :=
  ⟨.init grace, nofun, nofun, fun _ _ _ hp => absurd hp World.procs_init⟩

theorem spawned (h : ResetInv w) {w' : World V} (ho : OwnersInv w')
    (hslots : w'.table.slots = w.table.slots) (hnext : w'.table.nextSlot = w.table.nextSlot)
    (hitems : w'.table.items = w.table.items)
    (hprocs : w'.procs = update w.procs w.next (some ⟨caller, pc⟩))
    (hfill : pc.fills = none) (hreset : pc.toReset = []) : ResetInv w' := by
  have hback : ∀ {q x}, w'.procs q = some x → x = ⟨caller, pc⟩ ∨ w.procs q = some x :=
    fun hq => World.procs_update_back (hprocs ▸ hq)
  refine ⟨ho, ?_, ?_, fun q x i hx hi => ?_⟩
  · rw [hitems, hslots, hnext]
    exact h.keyed
  · rw [hitems, hslots]
    exact h.live
  · rw [hitems, hnext]
    rcases hback hx with rfl | hx
    · rw [hreset] at hi
      cases hi
    · obtain ⟨hlt, hun, hnone⟩ := h.taken q x i hx hi
      refine ⟨hlt, hun, fun q' y hy hyi => ?_⟩
      rcases hback hy with rfl | hy
      · rw [hfill] at hyi
        cases hyi
      · exact hnone q' y hy hyi

theorem step {w' : World V} {a : Action V} (h : ResetInv w) (hap : ResetApart w a)
    (hs : w.step a = some w') : ResetInv w' := by
  have ho := h.owners.step hs
  cases World.step_cases hs with
  | openKey | reset | fire => exact h.spawned ho rfl rfl rfl rfl rfl rfl
  | cancel | tick => exact ⟨ho, h.keyed, h.live, h.taken⟩
  | run hp hm => exact h.move hp hm ho hap

end ResetInv

/-! ## `finished` -/

structure FinishInv (s : Finishes V) : Prop where
  owners : OwnersInv s.world
  count : ∀ i, s.made i ≤ 1 ∧ s.closed i ≤ s.made i ∧
    ((s.world.table.slots i).finished = true ↔ s.closed i < s.made i)
  gone : ∀ i, (s.world.table.slots i).state = .gone →
    (s.world.table.slots i).finished = false
  unmade : ∀ i, s.world.table.nextSlot ≤ i → s.made i = 0

theorem SlotMove.finished {t : Table V} {j : ℕ} {pc pc' : Pc V} {s : Slot V}
    (h : SlotMove t j pc s pc') :
    s.finished = (t.slots j).finished ∧ (s.state = .gone → (t.slots j).state = .gone) ∨
      s.finished = false ∧ s.state = .gone ∨ j = t.nextSlot ∧ s.state = .busy := by
  cases h with
  | same | held | released | cleared => exact .inl ⟨rfl, id⟩
  | registered hj | closer hj => exact .inr (Or.inr ⟨hj, rfl⟩)
  | failed | broke | disposed | unmapped | reset => exact .inr (Or.inl ⟨rfl, rfl⟩)
  | _ => exact .inl ⟨rfl, nofun⟩

theorem counted {old new : Bool} {made closed : ℕ}
    (h : made ≤ 1 ∧ closed ≤ made ∧ (old = true ↔ closed < made))
    (hnew : new = true → old = true ∨ made = 0) :
    (made + if old = false ∧ new = true then 1 else 0) ≤ 1 ∧
    (closed + if old = true ∧ new = false then 1 else 0) ≤
      (made + if old = false ∧ new = true then 1 else 0) ∧
    (new = true ↔ (closed + if old = true ∧ new = false then 1 else 0) <
      (made + if old = false ∧ new = true then 1 else 0)) := by
  cases old <;> cases new <;> simp at h hnew ⊢ <;> omega

namespace FinishInv

variable {s s' : Finishes V}

theorem init (grace : ℤ) : FinishInv (Finishes.init (V := V) grace) where
  owners := .init grace
  count := fun _ => ⟨Nat.zero_le _, le_refl _, nofun, fun h => absurd h (lt_irrefl _)⟩
  gone := fun _ _ => rfl
  unmade := fun _ _ => rfl

theorem turned (h : FinishInv s) {w : World V} (ho : OwnersInv w)
    (hnext : s.world.table.nextSlot ≤ w.table.nextSlot)
    (hslot : ∀ i, (w.table.slots i).finished = (s.world.table.slots i).finished ∧
        ((w.table.slots i).state = .gone → (s.world.table.slots i).state = .gone) ∨
      (w.table.slots i).finished = false ∧ (w.table.slots i).state = .gone ∨
      i = s.world.table.nextSlot ∧ (w.table.slots i).state = .busy)
    (hs : s' = { world := w
                 made := fun i => s.made i +
                  if (s.world.table.slots i).finished = false ∧
                    (w.table.slots i).finished = true then 1 else 0
                 closed := fun i => s.closed i +
                  if (s.world.table.slots i).finished = true ∧
                    (w.table.slots i).finished = false then 1 else 0 }) :
    FinishInv s' := by
  subst hs
  have hgone : ∀ i, (w.table.slots i).state = .gone → (w.table.slots i).finished = false := by
    intro i hg
    rcases hslot i with ⟨hf, hst⟩ | ⟨hf, _⟩ | ⟨_, hst⟩
    · rw [hf]
      exact h.gone i (hst hg)
    · exact hf
    · rw [hst] at hg
      cases hg
  refine ⟨ho, fun i => ?_, hgone, fun i hi => ?_⟩
  · refine counted (h.count i) fun hnew => ?_
    rcases hslot i with ⟨hf, _⟩ | ⟨hf, _⟩ | ⟨hi, _⟩
    · exact .inl (hf.symm.trans hnew)
    · rw [hf] at hnew
      cases hnew
    · exact .inr (h.unmade i hi.ge)
  · have hold := h.gone i (h.owners.unmade (hnext.trans hi)).1
    have hnew := hgone i (ho.unmade hi).1
    simp only [hold, hnew]
    simpa using h.unmade i (hnext.trans hi)

theorem step {a : Action V} (h : FinishInv s) (hs : s.step a = some s') : FinishInv s' := by
  obtain ⟨w, hw, rfl⟩ := Option.map_eq_some_iff.mp hs
  have ho := h.owners.step hw
  cases World.step_cases hw with
  | openKey | cancel | reset | tick | fire =>
    exact h.turned ho (le_refl _) (fun _ => Or.inl ⟨rfl, id⟩) rfl
  | run hp hm => exact h.turned ho hm.nextSlot_le (fun i => (hm.slot i).finished) rfl

end FinishInv

/-! ## The owner gets there -/

def Pc.duty : Pc V → ℕ
  | createCall _ | wakeCall _ | unmapClosed _ _ => 3
  | createRun _ | wakeRun _ | closeFinal _ _ => 2
  | publishPut _ _ _ | createFailed _ _ | publishWake _ => 1
  | sleepCall _ _ => 8
  | sleepRun _ _ | panicked _ _ _ => 7
  | slept _ _ | closeReady _ _ _ _ => 6
  | closeCall _ _ => 5
  | closeRun _ _ => 4
  | _ => 0

def World.dutyOf (w : World V) (p : ℕ) : ℕ := ((w.procs p).map fun q => q.pc.duty).getD 0

theorem advance_of_owes (env : Env) {t : Table V} {pc : Pc V} {c : ℕ} (h : pc.owes t c) :
    ∃ inp t' pc' evs, advance env t inp pc = some (t', pc', evs) ∧ pc'.duty < pc.duty := by
  cases pc with
  | createRun i => exact ⟨.failed "", _, _, _, rfl, by simp [Pc.duty]⟩
  | createCall | wakeCall | publishPut | createFailed | wakeRun | publishWake | sleepCall
  | sleepRun | closeReady | closeCall | unmapClosed | closeFinal =>
    exact ⟨.none, _, _, _, rfl, by simp [Pc.duty]⟩
  | slept i err =>
    by_cases hz : (t.slots i).hooks.enforceCloseBeforeOpen = true ∧ t.grace = 0
    · exact ⟨.none, _, _, _, if_pos hz, by simp [Pc.duty]⟩
    · -- `parkAsleep` either arms the grace timer or leaves the slot to this drop.
      have hadv : ∃ t' pc' evs, advance env t .none (.slept i err) = some (t', pc', evs) ∧
          pc'.duty = 0 := by
        simp only [advance, if_neg hz]
        split
        · exact ⟨_, _, _, rfl, rfl⟩
        · exact ⟨_, _, _, rfl, rfl⟩
      obtain ⟨t', pc', evs, hadv, hzero⟩ := hadv
      exact ⟨.none, t', pc', evs, hadv, by rw [hzero]; simp [Pc.duty]⟩
  | panicked i createErr err =>
    by_cases henf : (t.slots i).hooks.enforceCloseBeforeOpen = true
    · exact ⟨.none, _, _, _, if_pos henf, by simp [Pc.duty]⟩
    · exact ⟨.none, _, _, _, if_neg henf, by simp [Pc.duty]⟩
  | closeRun i after =>
    refine ⟨.none, _, _, _, rfl, ?_⟩
    cases after <;> simp [Pc.duty]
  | _ => exact absurd h (Pc.owes_none rfl rfl)

theorem ChanStep.kept_or_met {t t' : Table V} {pc pc' : Pc V} {c : ℕ}
    (h : ChanStep t pc t' pc') (hc : pc.owes t c) (hopen : t.chans c = 0) :
    pc'.owes t' c ∨ t'.chans c = 1 := by
  cases h with
  | keep _ _ howes => exact .inl ((howes c).mpr hc)
  | makes _ _ howes => exact .inl ((howes c).mpr (Or.inl hc))
  | closes hchans _ howes =>
    refine ((howes c).mp hc).imp id fun he => ?_
    rw [hchans, ← he, update_self, hopen]

theorem ReadyInv.closes {s : Finishes V} {p c : ℕ} (h : ReadyInv s.world)
    (hc : s.world.Owes p c) :
    ∃ acts s', Along Finishes.step (fun _ a => ∃ inp, a = .run p inp) s acts ∧
      run Finishes.step s acts = some s' ∧ s'.world.table.chans c = 1 := by
  have hstep : ∀ s : Finishes V,
      ReadyInv s.world ∧ (s.world.Owes p c ∨ s.world.table.chans c = 1) →
      s.world.table.chans c = 1 ∨ ∃ a s', (∃ inp, a = .run p inp) ∧ s.step a = some s' ∧
        (ReadyInv s'.world ∧ (s'.world.Owes p c ∨ s'.world.table.chans c = 1)) ∧
        s'.world.dutyOf p < s.world.dutyOf p := by
    rintro s ⟨h, hc | hdone⟩
    · refine .inr ?_
      obtain ⟨⟨caller, pc⟩, hp, howes⟩ := hc
      obtain ⟨inp, t', pc', evs, hadv, hlt⟩ := advance_of_owes (s.world.env p caller) howes
      have hstep := World.step_of_advance hp hadv
      refine ⟨.run p inp, _, ⟨inp, rfl⟩, Option.map_eq_some_iff.mpr ⟨_, hstep, rfl⟩,
        ⟨h.step hstep, ?_⟩, ?_⟩
      · have hchan := h.chanStep hp (.of_advance hadv)
        refine (hchan.kept_or_met howes (h.owes_open ⟨_, hp, howes⟩).2).imp (fun hc => ?_) id
        exact ⟨_, World.procs_moved_self, hc⟩
      · unfold World.dutyOf
        rw [World.procs_moved_self, hp]
        exact hlt
    · exact .inl hdone
  obtain ⟨acts, s', hal, hrun, _, hgoal⟩ :=
    reaches_of_rank (fun s : Finishes V => s.world.dutyOf p) hstep s ⟨h, Or.inl hc⟩
  exact ⟨acts, s', hal, hrun, hgoal⟩

/-! ## The protocol -/

/-- If no Reset takes the map while an Open creates, `ready` and `finished` are
closed once and when they should be, in every run. -/
theorem ready_protocol {grace : ℤ} {acts : List (Action V)} {s : Finishes V}
    (hapart : Along Finishes.step (fun s a => ResetApart s.world a) (Finishes.init grace) acts)
    (hrun : run Finishes.step (Finishes.init grace) acts = some s) : ReadyProtocol s := by
  have hworld : ∀ {s s' : Finishes V} {a}, s.step a = some s' → s.world.step a = some s'.world := by
    intro s s' a hs
    obtain ⟨w, hw, rfl⟩ := Option.map_eq_some_iff.mp hs
    exact hw
  have hready : ReadyInv s.world :=
    run_inv (fun _ _ _ (h : ReadyInv _) hs => h.step (hworld hs)) (.init grace) hrun
  have hreset : ResetInv s.world :=
    run_inv_along (fun _ _ _ (h : ResetInv _) ha hs => h.step ha (hworld hs)) hapart
      (.init grace) hrun
  have hfinish : FinishInv s := run_inv (fun _ _ _ h hs => h.step hs) (.init grace) hrun
  have howner : ∀ {i}, (s.world.table.slots i).state = .busy →
      ∃ p q, s.world.procs p = some q ∧ q.pc.keepsBusy = some i := hready.owners.keeper
  refine ⟨fun i hi => ?_, fun i hlt hi => ?_, fun i hi => ?_, fun c => hready.closed_or_owed,
    fun p c => hready.closes, fun i => ⟨(hfinish.count i).1, (hfinish.count i).2.1, fun hg => ?_⟩,
    hreset.live, fun p q c hp hc => ?_⟩
  · obtain ⟨p, q, hp, hq⟩ := howner hi
    exact (hready.owes_open ⟨q, hp, Or.inl ⟨i, hq, rfl⟩⟩).2
  · rcases hready.closed_or_owed (hready.ready i hlt) with ⟨hone, _⟩ | ⟨_, p, hp, _⟩
    · exact .inl hone
    · obtain ⟨q, hq, ⟨j, hj, hr⟩ | hclose⟩ := hp
      · -- The `ready` of a slot that is kept busy is no other slot's.
        obtain ⟨hbusy, hjlt⟩ := hready.owners.busy_of_keeps hq hj
        exact absurd (hready.distinct j hjlt i hlt hr ▸ hbusy) hi
      · exact .inr ⟨p, q, hq, hclose⟩
  · obtain ⟨p, q, hp, hq⟩ := howner hi
    exact ⟨p, ⟨q, hp, hq⟩, fun p' ⟨q', hp', hq'⟩ =>
      hready.owners.keeper_unique hp' hp hq' hq⟩
  · obtain ⟨_, hle, hiff⟩ := hfinish.count i
    rw [hfinish.gone i hg] at hiff
    exact le_antisymm hle (Nat.le_of_not_lt fun hlt => by cases hiff.mpr hlt)
  · rcases hready.closed_or_owed (hready.parked p q c hp hc) with ⟨hone, _⟩ | ⟨_, p', hp', _⟩
    · exact .inl hone
    · exact .inr ⟨p', hp'⟩

/-- A Reset takes a slot while its Sleep runs; then the key is opened again. -/
def resetDuringSleep : List (Action Unit) :=
  createFor 0 0 "key" () ⟨true, false, true, false⟩ ++ dropFor 0 0 ++
    [Action.reset, .run 1 (.order [0])] ++ steps 1 2 ++ [Action.openKey "key" 1 false] ++ steps 2 2

theorem ready_protocol_resetDuringSleep : ∃ s : Finishes Unit,
    run Finishes.step (Finishes.init 5) resetDuringSleep = some s ∧
    (s.world.table.slots 0).state = .busy ∧ (s.world.table.slots 1).state = .busy ∧
    s.world.table.items "key" = some 1 ∧ ReadyProtocol s :=
  ⟨_, rfl, by decide +kernel, by decide +kernel, by decide +kernel,
    @ready_protocol Unit 5 resetDuringSleep _ (by decide +kernel) rfl⟩

end MiddlewareUtils.Reclaim
