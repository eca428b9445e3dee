import Mathlib.Data.Prod.Lex
import MiddlewareUtils.Lib.Tally
import MiddlewareUtils.Proofs.ReclaimMapping
import MiddlewareUtils.Proofs.ReclaimProtocol

/-!
# Every Open returns

Nothing in the table keeps a caller for ever. Once no new call comes and no
timer fires, the goroutines there are can take only so many steps, in
whatever order and however create and the hooks come out, and until all of
them are done one of them has a step. What is left then are watchers of
contexts that go on, and every Open has answered its caller.

An Open goes round in circles: it parks on a busy slot, looks the key up
again and may park again. `Pc.remaining` bounds the steps a process takes
apart from those rounds, and every such step lowers it. Between two of them
no channel is made or closed, so a waiter goes round once and then waits for
a channel that is open (`Pc.astray`). The owner of that channel is not
waiting itself.
-/

namespace MiddlewareUtils.Reclaim

open Lib Function

variable {V : Type}

/-- The steps to come, but for the rounds of waiting. -/
def Pc.remaining : Pc V → ℕ
  | lookup | parked _ _ | createErrOf _ => 18
  | createCall _ | wakeCall _ => 17
  | createRun _ | wakeRun _ => 16
  | publishPut _ _ _ | publishWake _ => 15
  | finishBind _ => 14
  | dropWhenDone _ => 13
  | live _ => 12
  | watchErr _ => 11
  | release _ _ => 10
  | claimDrop _ _ | dropParked _ _ _ => 9
  | sleepCall _ _ => 8
  | sleepRun _ _ => 7
  | slept _ _ | panicked _ _ _ => 6
  | closeReady _ _ _ _ | claimExpire _ _ => 5
  | closeCall _ _ => 4
  | closeRun _ _ => 3
  | unmapClosed _ _ => 2
  | closeFinal _ _ | createFailed _ _ => 1
  | _ => 0

/-- The steps to the next wait on an open channel. -/
def Pc.astray (chans : ℕ → ℕ) : Pc V → ℕ
  | parked _ ready | dropParked _ ready _ => if chans ready = 0 then 0 else 3
  | createErrOf _ => 2
  | lookup | claimDrop _ _ => 1
  | _ => 0

/-- An Open up to the end of its watch. -/
def Pc.opening : Pc V → Prop
  | lookup | parked _ _ | createErrOf _ | createCall _ | createRun _ | publishPut _ _ _
  | wakeCall _ | wakeRun _ | publishWake _ | finishBind _ | dropWhenDone _ | live _
  | watchErr _ => True
  | _ => False

/-- Open has answered its caller, or the process is no Open. -/
def Pc.answered : Pc V → Prop
  | live _ | watchErr _ | finished => True
  | release _ err | claimDrop _ err | dropParked _ _ err | sleepCall _ err | sleepRun _ err
  | slept _ err | panicked _ _ err | closeReady _ _ _ err | claimExpire _ err | unmapClosed _ err
  | closeFinal _ err | closeCall _ (.unmap _ err) | closeCall _ (.finish err)
  | closeRun _ (.unmap _ err) | closeRun _ (.finish err) => err = none
  | _ => False

def Event.answers (p : ℕ) : Event → Prop
  | opened q _ _ | failed q _ => q = p
  | _ => False

/-- A goroutine that has ended, or watches a context that goes on. -/
def World.AtRest (w : World V) (q : Proc V) : Prop :=
  q.pc = .finished ∨ ∃ key c polls i, q.caller = .opener key c polls ∧ w.ctxErr c = none ∧
    (q.pc = .live i ∨ q.pc = .watchErr i)

/-- A step of a goroutine that is not at rest. -/
def World.Works (w : World V) (a : Action V) : Prop :=
  ∃ p inp q, a = .run p inp ∧ w.procs p = some q ∧ ¬ w.AtRest q

/-! ## One step -/

section Step

variable {env : Env} {t t' : Table V} {pc pc' : Pc V} {evs : List Event}

theorem Move.answers (hm : Move env t pc t' pc' evs) (hno : ¬ pc.ofReset) (h : pc'.answered) :
    pc.answered ∨ ∃ e ∈ evs, e.answers env.p := by
  have hleave : ∀ (err : Option OpenError) (before : List Event),
      err = none ∨ ∃ e ∈ before ++ leave env.p err, e.answers env.p := by
    intro err before
    cases err with
    | none => exact .inl rfl
    | some e => exact .inr ⟨_, List.mem_append_right _ List.mem_cons_self, rfl⟩
  cases hm with
  | replay | putFailed | openedEnded | opened => exact .inr ⟨_, List.mem_cons_self, rfl⟩
  | poll | pollEnded | afterFunc | watchDone | watchOn => exact .inl trivial
  | dropStop | expireSkip | closeFinal => exact hleave _ []
  | parkGrace => exact hleave _ [_]
  | @closeStart _ after | @closed _ after =>
    cases after with
    | unmap => exact .inl h
    | finish => first | exact .inl h | exact hleave _ [_]
    | reset => exact absurd trivial hno
  | resetDone | resetSkip | resetAwake | resetAsleep | takeAll | resetSleepStart | resetSlept =>
    exact absurd trivial hno
  | _ => first | exact .inl h | exact h.elim | cases h

/-- Every step lowers `remaining`, but for a round of waiting and a poll. -/
theorem Move.remaining (hm : Move env t pc t' pc' evs) (hno : ¬ pc.ofReset)
    (hlive : ∀ k i, t.items k = some i → (t.slots i).state ≠ .gone)
    (hbusy : ∀ i, (t.slots i).state = .busy → t.chans (t.slots i).ready = 0)
    (hwatch : ∀ i, pc = .watchErr i → pc' ≠ .live i) :
    pc'.remaining < pc.remaining ∨ pc'.remaining = pc.remaining ∧ t'.chans = t.chans ∧
      pc'.astray t.chans < pc.astray t.chans := by
  cases hm with
  | park _ _ hs | dropPark hs =>
    refine .inr ⟨rfl, rfl, ?_⟩
    simp only [Pc.astray, if_pos (hbusy _ hs)]
    decide
  | retry _ hkey hs => exact absurd hs (hlive _ _ hkey)
  | unpark hready | dropUnpark hready =>
    refine .inr ⟨rfl, rfl, ?_⟩
    simp only [Pc.astray, if_neg hready]
    decide
  | again => exact .inr ⟨rfl, rfl, Nat.one_lt_two⟩
  | watchOn => exact absurd rfl (hwatch _ rfl)
  | @closed _ after => cases after <;> exact .inl (by simp [AfterClose.next, Pc.remaining])
  | resetDone | resetSkip | resetAwake | resetAsleep | takeAll | resetSleepStart | resetSlept =>
    exact absurd trivial hno
  | _ => exact .inl (by simp [Pc.remaining])

theorem Move.opening_back (hm : Move env t pc t' pc' evs) (h : pc'.opening) : pc.opening := by
  cases hm with
  | @closed _ after => cases after <;> exact h.elim
  | _ => first | exact trivial | exact h.elim

/-- Who neither waits nor rests has a step. -/
theorem advance_goes (env : Env) (t : Table V) (h : pc ≠ .finished) (hno : ¬ pc.ofReset)
    (hpark : pc.parkedOn = none) (hopen : pc.opening → ∃ key c polls,
      env.caller = .opener key c polls ∧
      ∀ i, pc = .live i ∨ pc = .watchErr i → (env.ctxErr c).isSome = true) :
    ∃ inp r, advance env t inp pc = some r := by
  by_cases howes : ∃ c, pc.owes t c
  · obtain ⟨c, hc⟩ := howes
    obtain ⟨inp, t', pc', evs, hadv, _⟩ := advance_of_owes env hc
    exact ⟨inp, _, hadv⟩
  · cases pc with
    | lookup =>
      obtain ⟨key, c, polls, hc, _⟩ := hopen trivial
      refine ⟨.none, ?_⟩
      simp only [advance, hc]
      cases hl : t.lookupOpen key with
      | mk t' step => cases step <;> exact ⟨_, rfl⟩
    | parked | dropParked => cases hpark
    | createErrOf i =>
      refine ⟨.none, ?_⟩
      simp only [advance]
      cases (t.slots i).createErr <;> exact ⟨_, rfl⟩
    | finishBind i =>
      obtain ⟨key, c, polls, hc, _⟩ := hopen trivial
      refine ⟨.none, ?_⟩
      simp only [advance, hc]
      cases env.ctxErr c <;> exact ⟨_, rfl⟩
    | dropWhenDone i =>
      obtain ⟨key, c, polls, hc, _⟩ := hopen trivial
      refine ⟨.none, ?_⟩
      simp only [advance, hc]
      split <;> exact ⟨_, rfl⟩
    | live i =>
      obtain ⟨key, c, polls, hc, hdone⟩ := hopen trivial
      refine ⟨.none, ?_⟩
      simp only [advance, hc, hdone i (.inl rfl), if_true]
      split
      · split <;> exact ⟨_, rfl⟩
      · exact ⟨_, rfl⟩
    | watchErr i =>
      obtain ⟨key, c, polls, hc, hdone⟩ := hopen trivial
      refine ⟨.none, ?_⟩
      simp only [advance, hc, hdone i (.inr rfl), if_true]
      exact ⟨_, rfl⟩
    | release i err => exact ⟨.none, _, rfl⟩
    | claimDrop i err =>
      refine ⟨.none, ?_⟩
      simp only [advance]
      cases hl : t.claimDrop i with
      | mk t' step => cases step <;> exact ⟨_, rfl⟩
    | claimExpire i err =>
      refine ⟨.none, ?_⟩
      simp only [advance]
      cases hl : t.claimExpire i with
      | mk t' step => cases step <;> exact ⟨_, rfl⟩
    | closeCall i after => exact ⟨.none, _, rfl⟩
    | closeRun i after => exact ⟨.none, _, rfl⟩
    | closeReady | closeFinal => exact absurd ⟨_, .inr rfl⟩ howes
    | finished => exact absurd rfl h
    | takeAll | resetNext | resetSleepCall | resetSleepRun => exact absurd trivial hno
    | _ => exact absurd ⟨_, .inl ⟨_, rfl, rfl⟩⟩ howes

end Step

/-! ## Runs without Reset -/

structure ReturnInv (w : World V) : Prop where
  mapped : MappedInv w
  ready : ReadyInv w
  opener : ∀ p q, w.procs p = some q → q.pc.opening →
    ∃ key c polls, q.caller = .opener key c polls
  answered : ∀ p q key c polls, w.procs p = some q → q.caller = .opener key c polls →
    q.pc.answered → ∃ e ∈ w.log, e.answers p

namespace ReturnInv

variable {w w' : World V} {a : Action V}

theorem init (grace : ℤ) : ReturnInv (World.init grace : World V) :=
  ⟨.init grace, .init grace, fun _ _ h => absurd h World.procs_init,
    fun _ _ _ _ _ h => absurd h World.procs_init⟩

theorem step (h : ReturnInv w) (ha : a.isReset = false) (hs : w.step a = some w') :
    ReturnInv w' := by
  have hmap := h.mapped.step ha hs
  have hready := h.ready.step hs
  cases World.step_cases hs with
  | openKey =>
    refine ⟨hmap, hready, fun p q hq hq' => ?_, fun p q _ _ _ hq hc hans => ?_⟩
    · rcases World.procs_update_back hq with rfl | hq
      · exact ⟨_, _, _, rfl⟩
      · exact h.opener p q hq hq'
    · rcases World.procs_update_back hq with rfl | hq
      · exact hans.elim
      · exact h.answered p q _ _ _ hq hc hans
  | fire =>
    refine ⟨hmap, hready, fun p q hq hq' => ?_, fun p q _ _ _ hq hc hans => ?_⟩
    · rcases World.procs_update_back hq with rfl | hq
      · exact hq'.elim
      · exact h.opener p q hq hq'
    · rcases World.procs_update_back hq with rfl | hq
      · cases hc
      · exact h.answered p q _ _ _ hq hc hans
  | reset => cases ha
  | tick => exact ⟨hmap, hready, h.opener, h.answered⟩
  | cancel =>
    refine ⟨hmap, hready, h.opener, fun p q _ _ _ hq hc hans => ?_⟩
    obtain ⟨e, he, hep⟩ := h.answered p q _ _ _ hq hc hans
    exact ⟨e, List.mem_append_left _ he, hep⟩
  | @run p _ caller pc _ _ _ hp hm =>
    refine ⟨hmap, hready, fun p' q hq hq' => ?_, fun p' q _ _ _ hq hc hans => ?_⟩
    · rcases World.procs_moved_back hq with ⟨rfl, rfl⟩ | ⟨_, hq⟩
      · obtain ⟨key, c, polls, hc⟩ := h.opener _ _ hp (hm.opening_back hq')
        exact ⟨key, c, polls, hc⟩
      · exact h.opener p' q hq hq'
    · rcases World.procs_moved_back hq with ⟨rfl, rfl⟩ | ⟨_, hq⟩
      · rcases hm.answers (h.mapped.noReset _ _ hp) hans with hans | ⟨e, he, hep⟩
        · obtain ⟨e, he, hep⟩ := h.answered _ _ _ _ _ hp hc hans
          exact ⟨e, List.mem_append_left _ he, hep⟩
        · exact ⟨e, List.mem_append_right _ he, hep⟩
      · obtain ⟨e, he, hep⟩ := h.answered p' q _ _ _ hq hc hans
        exact ⟨e, List.mem_append_left _ he, hep⟩

end ReturnInv

/-- Every goroutine is at rest, and every Open has answered its caller. -/
def World.Returned (w : World V) : Prop :=
  ∀ p q, w.procs p = some q → w.AtRest q ∧
    ∀ key c polls, q.caller = .opener key c polls → ∃ e ∈ w.log, e.answers p

def remaining : Option (Proc V) → ℕ
  | none => 0
  | some q => q.pc.remaining

def astray (chans : ℕ → ℕ) : Option (Proc V) → ℕ
  | none => 0
  | some q => q.pc.astray chans

def World.rank (w : World V) : ℕ ×ₗ ℕ :=
  toLex (tally remaining w.procs w.next, tally (astray w.table.chans) w.procs w.next)

namespace ReturnInv

variable {w w' : World V} {p : ℕ} {q : Proc V} {inp : Input V}

theorem rank_lt (h : ReturnInv w) (hp : w.procs p = some q) (hq : ¬ w.AtRest q)
    (hs : w.step (.run p inp) = some w') : w'.rank < w.rank := by
  have hbusy : ∀ i, (w.table.slots i).state = .busy →
      w.table.chans (w.table.slots i).ready = 0 := by
    intro i hi
    obtain ⟨p', q', hp', hq'⟩ := h.ready.owners.keeper hi
    exact (h.ready.owes_open ⟨q', hp', .inl ⟨i, hq', rfl⟩⟩).2
  have hlt : p < w.next := by
    by_contra hge
    rw [h.mapped.owners.unborn p (not_lt.mp hge)] at hp
    cases hp
  obtain ⟨caller, pc⟩ := q
  have hwatch : ∀ {t pc' evs}, advance (w.env p caller) w.table inp pc = some (t, pc', evs) →
      ∀ i, pc = .watchErr i → pc' ≠ .live i := by
    rintro t pc' evs hadv i rfl rfl
    obtain ⟨key, c, polls, rfl⟩ := h.opener p _ hp trivial
    cases hctx : w.ctxErr c with
    | none => exact hq (.inr ⟨key, c, polls, i, rfl, hctx, .inr rfl⟩)
    | some err => simp [advance, World.env, hctx] at hadv
  simp only [World.step, World.runProc, hp] at hs
  split at hs
  · cases hs
  next t pc' evs hadv =>
    cases hs
    have hrem := @tally_update _ remaining w.procs _ _ (some ⟨caller, pc'⟩) hlt
    have hast := @tally_update _ (astray w.table.chans) w.procs _ _ (some ⟨caller, pc'⟩) hlt
    rw [hp] at hrem hast
    dsimp only [remaining, astray] at hrem hast
    refine Prod.Lex.toLex_lt_toLex.mpr ?_
    rcases (Move.of_advance hadv).remaining (h.mapped.noReset p _ hp) h.mapped.mapping.live hbusy
      (hwatch hadv) with hlow | ⟨heq, hchans, hlow⟩
    · refine .inl ?_
      dsimp only [World.setProc]
      omega
    · refine .inr ⟨?_, ?_⟩
      · dsimp only [World.setProc]
        omega
      · dsimp only [World.setProc]
        rw [hchans]
        omega

theorem works (h : ReturnInv w) (hp : w.procs p = some q) (hq : ¬ w.AtRest q) :
    ∃ a w', w.Works a ∧ w.step a = some w' := by
  have hstep : ∀ {p q inp r}, w.procs p = some q → ¬ w.AtRest q →
      advance (w.env p q.caller) w.table inp q.pc = some r →
      ∃ a w', w.Works a ∧ w.step a = some w' := by
    rintro p ⟨caller, pc⟩ inp ⟨t, pc', evs⟩ hp hq hadv
    exact ⟨_, _, ⟨p, inp, _, rfl, hp, hq⟩, World.step_of_advance hp hadv⟩
  cases hpark : q.pc.parkedOn with
  | some c =>
    rcases h.ready.closed_or_owed (h.ready.parked p q c hp hpark) with
      ⟨hone, _⟩ | ⟨_, p', ⟨q', hp', howes⟩, _⟩
    · have hclosed : w.table.chans c ≠ 0 := by omega
      obtain ⟨caller, pc⟩ := q
      cases pc with
      | parked | dropParked =>
        obtain rfl := Option.some.inj hpark
        exact @hstep p _ .none _ hp hq (if_neg hclosed)
      | _ => cases hpark
    · obtain ⟨inp, _, _, _, hadv, _⟩ := advance_of_owes (w.env p' q'.caller) howes
      refine hstep hp' ?_ hadv
      rintro (hrest | ⟨_, _, _, i, _, _, hrest | hrest⟩) <;> rw [hrest] at howes <;>
        exact Pc.owes_none rfl rfl howes
  | none =>
    have hopen : q.pc.opening → ∃ key c polls, q.caller = .opener key c polls ∧
        ∀ i, q.pc = .live i ∨ q.pc = .watchErr i → (w.ctxErr c).isSome = true := by
      intro hopen
      obtain ⟨key, c, polls, hc⟩ := h.opener p q hp hopen
      refine ⟨key, c, polls, hc, fun i hi => Option.isSome_iff_ne_none.mpr fun hnone => ?_⟩
      exact hq (.inr ⟨key, c, polls, i, hc, hnone, hi⟩)
    obtain ⟨inp, r, hadv⟩ := advance_goes (w.env p q.caller) w.table (fun hf => hq (.inl hf))
      (h.mapped.noReset p q hp) hpark hopen
    exact hstep hp hq hadv

/-- Whatever runs next, the goroutines come to rest, with every property
that steps keep. -/
theorem settles {I G : World V → Prop}
    (hI : ∀ w a w', I w → a.isReset = false → w.step a = some w' → I w')
    (hG : ∀ w, ReturnInv w → I w → (∀ p q, w.procs p = some q → w.AtRest q) → G w)
    (h : ReturnInv w) (hi : I w) : Inevitably World.step World.Works G w := by
  have hlive : ∀ w, ReturnInv w ∧ I w → G w ∨ ∃ a w', World.Works w a ∧ w.step a = some w' := by
    rintro w ⟨h, hi⟩
    by_cases hall : ∀ p q, w.procs p = some q → w.AtRest q
    · exact .inl (hG w h hi hall)
    · push Not at hall
      obtain ⟨p, q, hp, hq⟩ := hall
      exact .inr (h.works hp hq)
  refine inevitably_of_rank World.rank hlive ?_ w ⟨h, hi⟩
  rintro w a w' ⟨h, hi⟩ ⟨p, inp, q, rfl, hp, hq⟩ hs
  exact ⟨⟨h.step rfl hs, hI w _ w' hi rfl hs⟩, h.rank_lt hp hq hs⟩

theorem of_run {grace : ℤ} {acts : List (Action V)} (hacts : ∀ a ∈ acts, a.isReset = false)
    (hrun : run World.step (World.init grace) acts = some w) : ReturnInv w :=
  run_inv_along (fun _ _ _ h ha hs => h.step ha hs) (along_of_forall hacts _) (.init grace) hrun

end ReturnInv

/-- Once the calls that come to a table have come, they all return: whatever
goroutine runs next and however create and the hooks come out, all of them
come to rest, and until then one of them can run. -/
theorem opens_return {grace : ℤ} {acts : List (Action V)} {w : World V}
    (hacts : ∀ a ∈ acts, a.isReset = false)
    (hrun : run World.step (World.init grace) acts = some w) :
    Inevitably World.step World.Works World.Returned w := by
  refine (ReturnInv.of_run hacts hrun).settles (I := fun _ => True) (fun _ _ _ _ _ _ => trivial)
    (fun w h _ hall p q hp => ⟨hall p q hp, fun key c polls hc => ?_⟩) trivial
  refine h.answered p q key c polls hp hc ?_
  rcases hall p q hp with hrest | ⟨_, _, _, _, _, _, hrest | hrest⟩ <;> rw [hrest] <;> trivial

/-- Open 1 waits for the create of Open 0. -/
def oneWaits : List (Action Unit) :=
  [Action.openKey "key" 0 false, .run 0 .none, .openKey "key" 1 false, .run 1 .none]

theorem opens_return_oneWaits : ∃ w : World Unit,
    run World.step (World.init 5) oneWaits = some w ∧
    w.procs 1 = some ⟨.opener "key" 1 false, .parked 0 0⟩ ∧
    Inevitably World.step World.Works World.Returned w :=
  ⟨_, rfl, rfl, @opens_return Unit 5 oneWaits _ (by decide) rfl⟩

end MiddlewareUtils.Reclaim
