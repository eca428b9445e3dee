import MiddlewareUtils.Proofs.ReclaimCreate
import MiddlewareUtils.Proofs.ReclaimReturns

/-!
# What Peek tells

`Peek` waits for nobody and binds nothing, so what it answers may be over by
the time the caller reads it. Two things can be counted on. While the context
of an Open that has returned goes on, a Peek of its key answers with the
value that Open returned, awake. And the answer is exact once the goroutines
are at rest: awake means that such a context is there, asleep that a timer
is armed to end the value, and no answer that nothing is kept under the key.

Both rest on a fact about Open that the slots alone do not show: the slots
an Open creates, wakes and holds are slots of its own key.
-/

namespace MiddlewareUtils.Reclaim

open Lib Function

variable {V : Type}

/-! ## Keys -/

/-- The slot an Open creates, wakes or holds. -/
def Pc.opens (pc : Pc V) (i : ℕ) : Prop := pc.puts = some i ∨ pc.holds i

theorem Move.opens_back {env : Env} {t t' : Table V} {pc pc' : Pc V} {evs : List Event} {i : ℕ}
    {key : String} {c : ℕ} {polls : Bool} (hm : Move env t pc t' pc' evs) (hmap : Mapping t)
    (hc : env.caller = .opener key c polls) (h : pc'.opens i) :
    pc.opens i ∨ i < t'.nextSlot ∧ (t'.slots i).key = key := by
  have hle := hm.nextSlot_le
  have hkeys := @Move.key_eq _ _ _ _ _ _ _ hm i
  cases hm with
  | create hcaller =>
    obtain ⟨rfl, _, _⟩ := Caller.opener.inj (hc.symm.trans hcaller)
    obtain rfl := Option.some.inj (h.resolve_right id)
    refine .inr ⟨Nat.lt_succ_self _, ?_⟩
    simp [Table.register, Table.registered]
  | bind hcaller hkey | wake hcaller hkey =>
    obtain ⟨rfl, _, _⟩ := Caller.opener.inj (hc.symm.trans hcaller)
    obtain rfl : i = _ := h.resolve_left (by simp [Pc.puts, Pc.fills])
    obtain ⟨hlt, hk⟩ := hmap.keyed _ _ hkey
    exact .inr ⟨hlt.trans_le hle, (hkeys hlt).trans hk⟩
  | put => exact .inl (.inl (congrArg some (h.resolve_left (by simp [Pc.puts, Pc.fills])).symm))
  | @closed _ after => cases after <;> rcases h with h | h <;> cases h
  | _ => rcases h with h | h <;> first | exact .inl (.inl h) | exact .inl (.inr h) | cases h

structure KeyInv (w : World V) : Prop where
  kept : KeptInv w
  keys : ∀ p q key c polls i, w.procs p = some q → q.caller = .opener key c polls →
    q.pc.opens i → i < w.table.nextSlot ∧ (w.table.slots i).key = key

namespace KeyInv

variable {w w' : World V}

theorem init (grace : ℤ) : KeyInv (World.init grace : World V) :=
  ⟨.init grace, fun _ _ _ _ _ _ h => absurd h World.procs_init⟩

theorem step {a : Action V} (h : KeyInv w) (ha : a.isReset = false) (hs : w.step a = some w') :
    KeyInv w' := by
  refine ⟨h.kept.step ha hs, fun p q key c polls i hq hc hi => ?_⟩
  cases World.step_cases hs with
  | openKey =>
    rcases World.procs_update_back hq with rfl | hq
    · rcases hi with hi | hi <;> cases hi
    · exact h.keys p q key c polls i hq hc hi
  | fire =>
    rcases World.procs_update_back hq with rfl | hq
    · cases hc
    · exact h.keys p q key c polls i hq hc hi
  | reset => cases ha
  | tick | cancel => exact h.keys p q key c polls i hq hc hi
  | run hp hm =>
    have hold : ∀ {p q}, w.procs p = some q → q.caller = .opener key c polls → q.pc.opens i →
        i < _ ∧ _ := fun hp hc hi =>
      have hkey := h.keys _ _ key c polls i hp hc hi
      ⟨hkey.1.trans_le hm.nextSlot_le, (hm.key_eq hkey.1).trans hkey.2⟩
    rcases World.procs_moved_back hq with ⟨rfl, rfl⟩ | ⟨_, hq⟩
    · rcases hm.opens_back h.kept.holders.mapped.mapping hc hi with hi | hkey
      · exact hold hp hc hi
      · exact hkey
    · exact hold hq hc hi

end KeyInv

/-- While the context of an Open that has returned goes on, a Peek of its key
answers with what that Open returned. -/
theorem peek_of_open {grace : ℤ} {acts : List (Action V)} {s : Opens V}
    (hacts : ∀ a ∈ acts, a.isReset = false)
    (hrun : run Opens.step (Opens.init grace) acts = some s) {p i c : ℕ} {q : Proc V}
    {key : String} {polls : Bool} (hp : s.world.procs p = some q)
    (hc : q.caller = .opener key c polls) (hopened : .opened p i c ∈ s.world.log)
    (hctx : s.world.ctxErr c = none) :
    ∃ v, s.returned p = some v ∧ s.world.table.peek key = some (some v, .awake) := by
  have halong : Along Opens.step _ (Opens.init grace) acts := along_of_forall hacts _
  have hstep : ∀ (s : Opens V) a s', KeyInv s.world → a.isReset = false → s.step a = some s' →
      KeyInv s'.world := fun _ _ _ h ha hs => h.step ha (Opens.world_of_step hs)
  have h : KeyInv s.world := run_inv_along hstep halong (.init grace) hrun
  have hbind : BindInv s := run_inv_along (fun _ _ _ h ha hs => h.step ha hs) halong
    (.init grace) hrun
  obtain ⟨⟨v, hret, hv, _⟩, _⟩ := hbind.opened p i c hopened
  obtain ⟨q', hp', _, hwatch⟩ := h.kept.holders.opened p i c hopened hctx
  obtain rfl := Option.some.inj (hp.symm.trans hp')
  have hbound := Pc.bound_of_watches hwatch
  have hawake := h.kept.holders.bound p q i hp hbound
  obtain ⟨_, rfl⟩ := h.keys p q key c polls i hp hc (.inr (Pc.holds_of_bound hbound))
  refine ⟨v, hret, ?_⟩
  simp only [Table.peek, h.kept.holders.mapped.mapping.of_awake hawake, hawake, hv]

theorem peek_of_open_created : ∃ s : Opens ℕ,
    run Opens.step (Opens.init 5) (createFor 0 0 "key" 7 Hooks.none) = some s ∧
    ∃ v, s.returned 0 = some v ∧ s.world.table.peek "key" = some (some v, .awake) :=
  ⟨_, rfl, @peek_of_open ℕ 5 (createFor 0 0 "key" 7 Hooks.none) _ (by decide) rfl 0 0 0 _ "key"
    false rfl rfl (by decide) rfl⟩

/-! ## At rest -/

/-- The answer of a Peek says who keeps the key. -/
structure World.Tells (w : World V) (key : String) : Prop where
  awake : ∀ v, w.table.peek key = some (v, .awake) → ∃ p q c polls i, w.procs p = some q ∧
    q.caller = .opener key c polls ∧ q.pc.watches i ∧ w.table.items key = some i ∧
    w.ctxErr c = none
  asleep : ∀ v, w.table.peek key = some (v, .asleep) → ∃ i u, w.table.items key = some i ∧
    (w.table.timers u).slot = i ∧ (w.table.timers u).status = .armed
  nothing : w.table.peek key = none → w.table.items key = none

theorem World.AtRest.quiet {w : World V} {q : Proc V} (h : w.AtRest q) :
    q.pc.keepsBusy = none ∧ (∀ i, ¬ q.pc.dropping i ∧ ¬ q.pc.expires i ∧ ¬ q.pc.breaks i) ∧
      ∀ i, q.pc.holds i →
        q.pc.watches i ∧ ∃ key c polls, q.caller = .opener key c polls ∧ w.ctxErr c = none := by
  rcases h with hpc | ⟨key, c, polls, j, hc, hctx, hpc | hpc⟩ <;> rw [hpc]
  · exact ⟨rfl, fun _ => ⟨id, id, id⟩, fun _ => False.elim⟩
  · exact ⟨rfl, fun _ => ⟨id, id, id⟩, fun _ hi => ⟨hi, key, c, polls, hc, hctx⟩⟩
  · exact ⟨rfl, fun _ => ⟨id, id, id⟩, fun _ hi => ⟨hi, key, c, polls, hc, hctx⟩⟩

namespace KeyInv

variable {w : World V} {key : String} {i : ℕ} (h : KeyInv w)
  (hrest : ∀ p q, w.procs p = some q → w.AtRest q)
include h hrest

theorem held (hkey : w.table.items key = some i) (hs : (w.table.slots i).state = .awake) :
    ∃ p q c polls i, w.procs p = some q ∧ q.caller = .opener key c polls ∧ q.pc.watches i ∧
      w.table.items key = some i ∧ w.ctxErr c = none := by
  have hh := h.kept.holders
  have hcount : (w.table.slots i).holders ≠ 0 := by
    intro hz
    obtain ⟨p, q, hp, hq⟩ := hh.last i hs hz
    exact ((hrest p q hp).quiet.2.1 i).1 hq
  have hpend : pending i w.log ≠ [] := by
    intro hnil
    rw [hh.count i, hnil] at hcount
    exact hcount rfl
  obtain ⟨p, hmem⟩ := List.exists_mem_of_ne_nil _ hpend
  obtain ⟨q, hp, hq⟩ := h.kept.bound i p (hh.mapped.mapping.live key i hkey) hmem
  obtain ⟨_, hidle, hholds⟩ := (hrest p q hp).quiet
  have hi := hq.resolve_right (hidle i).2.2
  obtain ⟨hwatch, key', c, polls, hc, hctx⟩ := hholds i hi
  obtain rfl := (h.keys p q key' c polls i hp hc (.inr hi)).2
  rw [(hh.mapped.mapping.keyed key i hkey).2] at hc
  exact ⟨p, q, c, polls, i, hp, hc, hwatch, hkey, hctx⟩

theorem armed (hs : (w.table.slots i).state = .asleep) :
    ∃ u, (w.table.timers u).slot = i ∧ (w.table.timers u).status = .armed := by
  rcases h.kept.asleep i hs with ⟨_, u, _, _, hu, harmed | ⟨p, hp⟩⟩ | ⟨_, p, q, hp, hq⟩
  · exact ⟨u, hu, harmed⟩
  · exact absurd rfl (((hrest p _ hp).quiet.2.1 i).2.1)
  · exact absurd hq (((hrest p q hp).quiet.2.1 i).2.1)

theorem tells (hready : ReadyInv w) (key : String) : w.Tells key := by
  refine ⟨fun v hv => ?_, fun v hv => ?_, fun hv => ?_⟩
  all_goals
    unfold Table.peek at hv
    split at hv
  · cases hv
  next i hkey =>
    cases hs : (w.table.slots i).state with
    | awake => exact h.held hrest hkey hs
    | asleep | busy | gone => simp [hs] at hv
  · cases hv
  next i hkey =>
    cases hs : (w.table.slots i).state with
    | asleep =>
      obtain ⟨u, hu, harmed⟩ := h.armed hrest hs
      exact ⟨i, u, hkey, hu, harmed⟩
    | awake | busy | gone => simp [hs] at hv
  · assumption
  next i hkey =>
    cases hs : (w.table.slots i).state with
    | awake | asleep => simp [hs] at hv
    | busy =>
      obtain ⟨p, q, hp, hq⟩ := hready.owners.keeper hs
      rw [(hrest p q hp).quiet.1] at hq
      cases hq
    | gone => exact absurd hs (h.kept.holders.mapped.mapping.live key i hkey)

end KeyInv

/-- Once the calls that come to a table have come, it comes to where Peek
tells of every key who keeps it. -/
theorem peek_settles {grace : ℤ} {acts : List (Action V)} {w : World V}
    (hacts : ∀ a ∈ acts, a.isReset = false)
    (hrun : run World.step (World.init grace) acts = some w) :
    Inevitably World.step World.Works (fun w => ∀ key, w.Tells key) w := by
  have h : KeyInv w := run_inv_along (fun _ _ _ h ha hs => h.step ha hs)
    (along_of_forall hacts _) (.init grace) hrun
  exact (ReturnInv.of_run hacts hrun).settles (fun _ _ _ h ha hs => h.step ha hs)
    (fun _ hr h hrest => h.tells hrest hr.ready) h

/-- The value is about to be put to sleep, and a Peek does not answer. -/
theorem peek_settles_dropped : ∃ w : World Unit,
    run World.step (World.init 5) (createFor 0 0 "key" () Hooks.none ++ dropFor 0 0) = some w ∧
    w.table.peek "key" = none ∧ w.table.items "key" = some 0 ∧
    Inevitably World.step World.Works (fun w => ∀ key, w.Tells key) w :=
  ⟨_, rfl, rfl, rfl, @peek_settles Unit 5 (createFor 0 0 "key" () Hooks.none ++ dropFor 0 0) _
    (by decide) rfl⟩

end MiddlewareUtils.Reclaim
