import MiddlewareUtils.SimpleRedis.Moves

/-!
# Notes on single commands

What a command was told along the way is not in its state once it has
returned: the deadline its caller gave it, what its context said when it
last looked, how often it asked for a socket. A watcher keeps such notes
beside the client, one per command, and nothing of the client reads them.
What is noted is a parameter (`Notes`), so a property that needs notes of
its own brings only those.

Properties of this kind are about one command at a time, and the rule for
them is here once. To a command every step of the client is one of five
things (`World.StepFor`): its own step, a panic that unwinds it, its caller
cancelling, its deadline being noticed, or something elsewhere, which leaves
the command where it is, lets time pass and logs nothing of the command's. A
property kept by each of the five holds of every command in every run
(`Keeper.run`).
-/

namespace MiddlewareUtils.SimpleRedis

open Lib Function

/-! ## What a step is to one command -/

namespace World

structure Elsewhere (w : World) (p : ℕ) (w' : World) : Prop where
  proc : w'.procs p = w.procs p
  now : w.now ≤ w'.now
  cfg : w'.cfg = w.cfg
  log : ∃ evs, w'.log = w.log ++ evs ∧ ∀ ev ∈ evs, ¬ ev.of p

/-- The context of a command has ended. -/
def ended (w : World) (p : ℕ) (c : Call) (pc : Pc) (e : CtxErr) : World :=
  w.setProc p (.exec { c with ctx := { c.ctx with err := some e } } pc)

inductive StepFor (w : World) (p : ℕ) (c : Call) (pc : Pc) : Action → World → Prop
  | own {inp sr c' pc' evs} (hadv : advance (w.env p) w.pool inp c pc = some (sr, c', pc', evs)) :
      StepFor w p c pc (.run p inp) (w.moved p sr (.exec c' pc') evs)
  | unwound {sr pc'} (hm : Unwind w.pool pc sr pc') :
      StepFor w p c pc (.panic p) (w.moved p sr (.exec c pc') [])
  | cancelled (hnone : c.ctx.err = none) : StepFor w p c pc (.cancel p) (w.ended p c pc .canceled)
  | expired {d} (hnone : c.ctx.err = none) (hd : c.ctx.deadline = some d) (hdue : d ≤ w.now) :
      StepFor w p c pc (.expire p) (w.ended p c pc .deadlineExceeded)
  | elsewhere {a w'} (hrun : ∀ inp, a ≠ .run p inp) (hpanic : a ≠ .panic p)
      (hcancel : a ≠ .cancel p) (h : w.Elsewhere p w') : StepFor w p c pc a w'

variable {w w' : World} {p q : ℕ} {c : Call} {pc : Pc} {a : Action}

theorem Elsewhere.moved {sr : Pool} {proc : Proc} {evs : List Event} (hq : q ≠ p)
    (hevs : ∀ ev ∈ evs, ev.of q) : w.Elsewhere p (w.moved q sr proc evs) where
  proc := procs_moved_of_ne hq.symm
  now := le_refl _
  cfg := rfl
  log := ⟨evs, rfl, fun ev hev hof => hq (Event.of_inj hof (hevs ev hev))⟩

theorem Elsewhere.same {evs : List Event} (hprocs : w'.procs = w.procs) (hnow : w.now ≤ w'.now)
    (hcfg : w'.cfg = w.cfg) (hlog : w'.log = w.log ++ evs) (hevs : ∀ ev ∈ evs, ¬ ev.of p) :
    w.Elsewhere p w' :=
  ⟨congrFun hprocs p, hnow, hcfg, evs, hlog, hevs⟩

theorem Elsewhere.set {proc : Proc} (hq : q ≠ p) : w.Elsewhere p (w.setProc q proc) where
  proc := update_of_ne hq.symm ..
  now := le_refl _
  cfg := rfl
  log := ⟨[], (List.append_nil _).symm, nofun⟩

theorem endCtx_spec {e : CtxErr} (h : w.endCtx q e = some w') :
    ∃ c pc, w.procs q = some (.exec c pc) ∧ c.ctx.err = none ∧
      (e = .deadlineExceeded → ∃ d, c.ctx.deadline = some d ∧ d ≤ w.now) ∧
      w' = w.ended q c pc e := by
  simp only [endCtx] at h
  split at h
  next hp =>
    split at h
    next hg =>
      cases h
      exact ⟨_, _, hp, hg.1, hg.2, rfl⟩
    · cases h
  · cases h

theorem step_for (hk : w.Known) (hp : w.procs p = some (.exec c pc)) (h : w.step a = some w') :
    w.StepFor p c pc a w' := by
  have hnone : ∀ ev ∈ ([] : List Event), ¬ ev.of p := nofun
  have hnil := (List.append_nil w.log).symm
  have hnext : w.next ≠ p := (hk.lt_next hp).ne'
  cases a with
  | exec args ctx =>
    cases h
    exact .elsewhere nofun nofun nofun
      ⟨update_of_ne hnext.symm .., le_refl _, rfl, [], hnil, hnone⟩
  | close =>
    cases h
    exact .elsewhere nofun nofun nofun
      ⟨update_of_ne hnext.symm .., le_refl _, rfl, [], hnil, hnone⟩
  | run q inp =>
    by_cases hq : q = p
    · subst hq
      obtain ⟨sr, c', pc', evs, hadv, rfl⟩ := run_exec hp h
      exact .own hadv
    · refine .elsewhere (fun _ he => hq (Action.run.inj he).1) nofun nofun ?_
      cases step_cases h with
      | run _ hm => exact .moved hq hm.events_own
      | runClose => exact .moved hq nofun
      | endCtx ha => exact nomatch ha
  | panic q =>
    by_cases hq : q = p
    · subst hq
      cases step_cases h with
      | panic hp' hm =>
        cases hp.symm.trans hp'
        exact .unwound hm
      | endCtx ha => exact nomatch ha
    · refine .elsewhere nofun (fun he => hq (Action.panic.inj he)) nofun ?_
      cases step_cases h with
      | panic => exact .moved hq nofun
      | endCtx ha => exact nomatch ha
  | cancel q =>
    obtain ⟨c', pc', hp', hc, _, rfl⟩ := endCtx_spec h
    by_cases hq : q = p
    · subst hq
      cases hp.symm.trans hp'
      exact .cancelled hc
    · exact .elsewhere nofun nofun (fun he => hq (Action.cancel.inj he)) (.set hq)
  | expire q =>
    obtain ⟨c', pc', hp', hc, hdue, rfl⟩ := endCtx_spec h
    by_cases hq : q = p
    · subst hq
      cases hp.symm.trans hp'
      obtain ⟨d, hd, hle⟩ := hdue rfl
      exact .expired hc hd hle
    · exact .elsewhere nofun nofun nofun (.set hq)
  | tick elapsed =>
    cases h
    refine .elsewhere nofun nofun nofun (.same rfl ?_ rfl hnil hnone)
    show w.now ≤ w.now + elapsed
    omega
  | startWatch q =>
    refine .elsewhere nofun nofun nofun ?_
    cases step_cases h with
    | startWatch => exact .same rfl (le_refl _) rfl hnil hnone
    | endCtx ha => exact nomatch ha
  | watchClose s =>
    refine .elsewhere nofun nofun nofun ?_
    cases step_cases h with
    | watchClose => exact .same rfl (le_refl _) rfl hnil hnone
    | endCtx ha => exact nomatch ha
  | answer s r =>
    refine .elsewhere nofun nofun nofun ?_
    cases step_cases h with
    | answer =>
      refine .same rfl (le_refl _) rfl rfl fun ev hev hof => ?_
      cases List.mem_singleton.mp hev
      exact hof
    | endCtx ha => exact nomatch ha
  | cut s n =>
    cases h
    exact .elsewhere nofun nofun nofun (.same rfl (le_refl _) rfl hnil hnone)

theorem exec_back (h : w.step a = some w') (hp : w'.procs p = some (.exec c pc)) :
    (∃ c pc, w.procs p = some (.exec c pc)) ∨ ∃ args ctx, a = .exec args ctx ∧ p = w.next := by
  cases step_cases h with
  | exec =>
    rcases update_eq_some hp with ⟨rfl, _⟩ | ⟨_, hold⟩
    · exact .inr ⟨_, _, rfl, rfl⟩
    · exact .inl ⟨_, _, hold⟩
  | close | runClose =>
    rcases update_eq_some hp with ⟨_, hproc⟩ | ⟨_, hold⟩
    · cases hproc
    · exact .inl ⟨_, _, hold⟩
  | run hq | panic hq | endCtx _ hq =>
    rcases update_eq_some hp with ⟨rfl, _⟩ | ⟨_, hold⟩
    · exact .inl ⟨_, _, hq⟩
    · exact .inl ⟨_, _, hold⟩
  | tick | startWatch | watchClose | answer | cut => exact .inl ⟨_, _, hp⟩

end World

/-! ## The watcher -/

/-- What is noted of a command when it starts, when it is about to take a step,
when a panic unwinds it, and when its caller cancels. -/
structure Notes (γ : Type) where
  start : ℤ → Ctx → γ
  step : Env → Pool → Input → Call → Pc → γ → γ
  panic : Pc → γ → γ
  cancel : ℤ → Call → γ → γ

/-- A client with notes on each of its commands. -/
structure Noted (γ : Type) where
  world : World
  notes : ℕ → γ

namespace Noted

variable {γ : Type}

def init (n : Notes γ) (w : World) : Noted γ := ⟨w, fun _ => n.start w.now ⟨none, none⟩⟩

def revise (s : Noted γ) (p : ℕ) (f : Call → Pc → γ → γ) : ℕ → γ :=
  match s.world.procs p with
  | some (.exec c pc) => update s.notes p (f c pc (s.notes p))
  | _ => s.notes

def note (n : Notes γ) (s : Noted γ) : Action → ℕ → γ
  | .exec _ ctx => update s.notes s.world.next (n.start s.world.now ctx)
  | .run p inp => s.revise p (n.step (s.world.env p) s.world.pool inp)
  | .panic p => s.revise p fun _ => n.panic
  | .cancel p => s.revise p fun c _ => n.cancel s.world.now c
  | _ => s.notes

def step (n : Notes γ) (s : Noted γ) (a : Action) : Option (Noted γ) :=
  (s.world.step a).map fun w => ⟨w, s.note n a⟩

variable {n : Notes γ} {s s' : Noted γ} {a : Action} {p q : ℕ} {c : Call} {pc : Pc}

theorem step_of_advance {inp : Input} {sr : Pool} {c' : Call} {pc' : Pc} {evs : List Event}
    (hp : s.world.procs p = some (.exec c pc))
    (hadv : advance (s.world.env p) s.world.pool inp c pc = some (sr, c', pc', evs)) :
    s.step n (.run p inp) =
      some ⟨s.world.moved p sr (.exec c' pc') evs, s.note n (.run p inp)⟩ := by
  rw [step, World.step_of_advance hp hadv]
  rfl

theorem revise_self {f : Call → Pc → γ → γ} (hp : s.world.procs p = some (.exec c pc)) :
    s.revise p f p = f c pc (s.notes p) := by
  simp only [revise, hp, update_self]

theorem revise_of_ne {f : Call → Pc → γ → γ} (hq : q ≠ p) : s.revise p f q = s.notes q := by
  unfold revise
  cases hp : s.world.procs p with
  | none => rfl
  | some proc =>
    cases proc with
    | exec c pc => exact update_of_ne hq ..
    | close pc => rfl

theorem note_elsewhere (hnext : q ≠ s.world.next) (hrun : ∀ inp, a ≠ .run q inp)
    (hpanic : a ≠ .panic q) (hcancel : a ≠ .cancel q) : s.note n a q = s.notes q := by
  cases a with
  | exec => exact update_of_ne hnext ..
  | run p inp => exact revise_of_ne fun he => hrun inp (he ▸ rfl)
  | panic p => exact revise_of_ne fun he => hpanic (he ▸ rfl)
  | cancel p => exact revise_of_ne fun he => hcancel (he ▸ rfl)
  | _ => rfl

end Noted

/-! ## The rule -/

/-- A property `I` of a command and the notes on it that every step keeps. The
steps meet `P`, and `J` is known of the client. -/
structure Keeper {γ : Type} (n : Notes γ) (P : World → Action → Prop) (J : World → Prop)
    (I : World → ℕ → γ → Call → Pc → Prop) : Prop where
  client : ∀ {w a w'}, J w → P w a → w.step a = some w' → J w'
  start : ∀ {w : World} {args ctx}, J w → P w (.exec args ctx) →
    (∀ ev ∈ w.log, ¬ ev.of w.next) →
    I (w.spawn (.exec (.begin args ctx) .start)) w.next (n.start w.now ctx) (.begin args ctx) .start
  own : ∀ {w : World} {p inp g c pc sr c' pc' evs}, J w → w.procs p = some (.exec c pc) →
    I w p g c pc → advance (w.env p) w.pool inp c pc = some (sr, c', pc', evs) →
    I (w.moved p sr (.exec c' pc') evs) p (n.step (w.env p) w.pool inp c pc g) c' pc'
  unwound : ∀ {w : World} {p g c pc sr pc'}, J w → P w (.panic p) →
    w.procs p = some (.exec c pc) → I w p g c pc → Unwind w.pool pc sr pc' →
    I (w.moved p sr (.exec c pc') []) p (n.panic pc g) c pc'
  cancelled : ∀ {w : World} {p g c pc}, J w → c.ctx.err = none → I w p g c pc →
    I (w.ended p c pc .canceled) p (n.cancel w.now c g)
      { c with ctx := { c.ctx with err := some .canceled } } pc
  expired : ∀ {w : World} {p g c pc d}, J w → c.ctx.err = none → c.ctx.deadline = some d →
    d ≤ w.now → I w p g c pc →
    I (w.ended p c pc .deadlineExceeded) p g
      { c with ctx := { c.ctx with err := some .deadlineExceeded } } pc
  elsewhere : ∀ {w : World} {a w' p g c pc}, J w → w.procs p = some (.exec c pc) →
    w.step a = some w' → w.Elsewhere p w' → I w p g c pc → I w' p g c pc

namespace Keeper

variable {γ : Type} {n : Notes γ} {P : World → Action → Prop} {J : World → Prop}
  {I : World → ℕ → γ → Call → Pc → Prop} {s s' : Noted γ} {a : Action}

structure Holds (J : World → Prop) (I : World → ℕ → γ → Call → Pc → Prop) (s : Noted γ) :
    Prop where
  known : s.world.Known
  unborn : ∀ p, s.world.procs p = none → ∀ ev ∈ s.world.log, ¬ ev.of p
  client : J s.world
  commands : ∀ p c pc, s.world.procs p = some (.exec c pc) → I s.world p (s.notes p) c pc

theorem unborn_step {w w' : World} (hunborn : ∀ p, w.procs p = none → ∀ ev ∈ w.log, ¬ ev.of p)
    (h : w.step a = some w') (p : ℕ) (hp : w'.procs p = none) : ∀ ev ∈ w'.log, ¬ ev.of p := by
  have hset : ∀ {q : ℕ} {proc : Proc}, update w.procs q (some proc) p = none →
      p ≠ q ∧ w.procs p = none := by
    intro q proc hq
    by_cases hpq : p = q
    · subst hpq
      rw [update_self] at hq
      cases hq
    · exact ⟨hpq, (update_of_ne hpq ..).symm.trans hq⟩
  cases World.step_cases h with
  | exec | close => exact hunborn p (hset hp).2
  | endCtx => exact hunborn p (hset hp).2
  | run _ hm =>
    obtain ⟨hne, hp⟩ := hset hp
    intro ev hev hof
    rcases List.mem_append.mp hev with hev | hev
    · exact hunborn p hp ev hev hof
    · exact hne (Event.of_inj (hm.events_own ev hev) hof)
  | runClose | panic =>
    rw [show (World.moved ..).log = w.log from List.append_nil _]
    exact hunborn p (hset hp).2
  | tick | startWatch | watchClose | cut => exact hunborn p hp
  | answer =>
    intro ev hev hof
    rcases List.mem_append.mp hev with hev | hev
    · exact hunborn p hp ev hev hof
    · cases List.mem_singleton.mp hev
      exact hof

theorem step (hk : Keeper n P J I) (h : Holds J I s) (ha : P s.world a)
    (hs : s.step n a = some s') : Holds J I s' := by
  obtain ⟨w', hw, rfl⟩ := Option.map_eq_some_iff.mp hs
  refine ⟨h.known.step hw, unborn_step h.unborn hw, hk.client h.client ha hw,
    fun p c' pc' hp' => ?_⟩
  show I w' p (s.note n a p) c' pc'
  rcases World.exec_back hw hp' with ⟨c, pc, hp⟩ | ⟨args, ctx, rfl, rfl⟩
  · have hI := h.commands p c pc hp
    cases World.step_for h.known hp hw with
    | own hadv =>
      cases World.procs_moved_self.symm.trans hp'
      rw [show s.note n (.run p _) p = _ from Noted.revise_self hp]
      exact hk.own h.client hp hI hadv
    | unwound hm =>
      cases World.procs_moved_self.symm.trans hp'
      rw [show s.note n (.panic p) p = _ from Noted.revise_self hp]
      exact hk.unwound h.client ha hp hI hm
    | cancelled hnone =>
      cases (update_self ..).symm.trans hp'
      rw [show s.note n (.cancel p) p = _ from Noted.revise_self hp]
      exact hk.cancelled h.client hnone hI
    | expired hnone hd hdue =>
      cases (update_self ..).symm.trans hp'
      exact hk.expired h.client hnone hd hdue hI
    | elsewhere hrun hpanic hcancel helse =>
      cases hp.symm.trans (helse.proc.symm.trans hp')
      rw [Noted.note_elsewhere (h.known.lt_next hp).ne hrun hpanic hcancel]
      exact hk.elsewhere h.client hp hw helse hI
  · cases hw
    cases (update_self ..).symm.trans hp'
    rw [show s.note n (.exec args ctx) s.world.next = n.start s.world.now ctx from
      update_self ..]
    exact hk.start h.client ha (h.unborn _ (h.known _ (le_refl _)))

theorem run (hk : Keeper n P J I) {cfg : Config} {acts : List Action}
    (hJ : J (.init cfg)) (hacts : Along (Noted.step n) (fun s a => P s.world a)
      (.init n (.init cfg)) acts)
    (hrun : Lib.run (Noted.step n) (.init n (.init cfg)) acts = some s) : Holds J I s := by
  refine run_inv_along (fun _ _ _ h ha hs => hk.step h ha hs) hacts ?_ hrun
  exact ⟨.init cfg, fun _ _ => nofun, hJ, fun _ _ _ hp => nomatch (show none = some _ from hp)⟩

end Keeper

end MiddlewareUtils.SimpleRedis
