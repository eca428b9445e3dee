import Mathlib.Logic.Function.Basic
import Mathlib.Order.WellFounded

/-!
# Runs of a guarded step function

Every concurrent component of this development is a step function
`step : σ → α → Option σ`: the action says which goroutine moves and how
the environment answers it, and `none` says the action is not enabled in
that state. A run is a list of actions, each enabled where it is taken, so
quantifying over lists of actions is quantifying over interleavings.

Four rules are all the proofs ask of this file. `run_inv` is the induction
over a run, proved once: what every step preserves, every run preserves.
`run_inv_along` is the same rule when the steps also meet a condition on
the state they start from, which is how a run without some call, or a run
that never enters a bad branch, is spelled. `reaches_of_rank` is the rule
for getting somewhere: a run to the goal exists when, short of it, there is
always a step that lowers a well-founded rank. `inevitably_of_rank` is the
rule for having to get there: every step of the kind in question lowers the
rank, and short of the goal there is one.
-/

namespace MiddlewareUtils.Lib

variable {σ α : Type*} {step : σ → α → Option σ}

/-- Take the actions one after another; `none` as soon as one is refused. -/
def run (step : σ → α → Option σ) : σ → List α → Option σ
  | s, [] => some s
  | s, a :: as => (step s a).bind fun s' => run step s' as

/-- Every action of the run meets `P` in the state it is taken from. -/
def Along (step : σ → α → Option σ) (P : σ → α → Prop) : σ → List α → Prop
  | _, [] => True
  | s, a :: as => P s a ∧ ∀ s', step s a = some s' → Along step P s' as

theorem run_cons {s t : σ} {a : α} {as : List α}
    (h : run step s (a :: as) = some t) :
    ∃ s', step s a = some s' ∧ run step s' as = some t :=
  Option.bind_eq_some_iff.mp h

theorem run_of_step {s s' t : σ} {a : α} {as : List α} (hs : step s a = some s')
    (h : run step s' as = some t) : run step s (a :: as) = some t :=
  Option.bind_eq_some_iff.mpr ⟨s', hs, h⟩

theorem run_inv_along {P : σ → α → Prop} {Inv : σ → Prop}
    (hstep : ∀ s a s', Inv s → P s a → step s a = some s' → Inv s') :
    ∀ {as : List α} {s t : σ}, Along step P s as → Inv s →
      run step s as = some t → Inv t := by
  intro as
  induction as with
  | nil =>
    intro s t _ hs h
    rw [run] at h
    injection h with h
    exact h ▸ hs
  | cons a as ih =>
    intro s t hal hs h
    obtain ⟨s', hs', hrun⟩ := run_cons h
    exact ih (hal.2 s' hs') (hstep s a s' hs hal.1 hs') hrun

/-- A run seen through `f` is a run of another machine, when its steps are. -/
theorem run_map_along {τ : Type*} {step' : τ → α → Option τ} {f : σ → τ}
    {P : σ → α → Prop} {Inv : σ → Prop}
    (hstep : ∀ s a s', Inv s → P s a → step s a = some s' →
      Inv s' ∧ step' (f s) a = some (f s')) :
    ∀ {as : List α} {s t : σ}, Along step P s as → Inv s →
      run step s as = some t → run step' (f s) as = some (f t) := by
  intro as
  induction as with
  | nil =>
    intro s t _ _ h
    injection h with h
    subst h
    rfl
  | cons a as ih =>
    intro s t hal hs h
    obtain ⟨s', hs', hrun⟩ := run_cons h
    obtain ⟨hinv, hmap⟩ := hstep s a s' hs hal.1 hs'
    exact run_of_step hmap (ih (hal.2 s' hs') hinv hrun)

theorem along_of_forall {Q : α → Prop} {as : List α} (h : ∀ a ∈ as, Q a) (s : σ) :
    Along step (fun _ a => Q a) s as := by
  induction as generalizing s with
  | nil => trivial
  | cons a as ih =>
    exact ⟨h a List.mem_cons_self,
      fun s' _ => ih (fun b hb => h b (List.mem_cons_of_mem a hb)) s'⟩

theorem Along.and_forall {P : σ → α → Prop} {Q : α → Prop} {as : List α} {s : σ}
    (h : Along step P s as) (hQ : ∀ a ∈ as, Q a) :
    Along step (fun s a => P s a ∧ Q a) s as := by
  induction as generalizing s with
  | nil => trivial
  | cons a as ih =>
    exact ⟨⟨h.1, hQ a List.mem_cons_self⟩, fun s' hs' =>
      ih (h.2 s' hs') fun b hb => hQ b (List.mem_cons_of_mem a hb)⟩

instance decidableAlong {P : σ → α → Prop} [∀ s a, Decidable (P s a)] :
    ∀ (as : List α) (s : σ), Decidable (Along step P s as)
  | [], _ => isTrue trivial
  | a :: as, s =>
    match h : step s a with
    | none => decidable_of_iff (P s a)
        ⟨fun hp => ⟨hp, fun _ hs' => absurd (h.symm.trans hs') nofun⟩, fun hal => hal.1⟩
    | some t =>
      have : Decidable (Along step P t as) := decidableAlong as t
      decidable_of_iff (P s a ∧ Along step P t as)
        ⟨fun hp => ⟨hp.1, fun _ hs' => Option.some.inj (h.symm.trans hs') ▸ hp.2⟩,
          fun hal => ⟨hal.1, hal.2 t h⟩⟩

theorem run_inv {Inv : σ → Prop}
    (hstep : ∀ s a s', Inv s → step s a = some s' → Inv s')
    {as : List α} {s t : σ} (hs : Inv s) (h : run step s as = some t) :
    Inv t :=
  run_inv_along (fun s a s' hi _ => hstep s a s' hi)
    (along_of_forall (Q := fun _ => True) (fun _ _ => trivial) s) hs h

/-- A rank that some step lowers, wherever the goal is not reached, gives a
run to the goal. -/
theorem reaches_of_rank {ρ : Type*} [LT ρ] [WellFoundedLT ρ] {P : σ → α → Prop}
    {Inv Goal : σ → Prop} (rank : σ → ρ)
    (hstep : ∀ s, Inv s → Goal s ∨
      ∃ a s', P s a ∧ step s a = some s' ∧ Inv s' ∧ rank s' < rank s)
    (s : σ) (hs : Inv s) :
    ∃ as t, Along step P s as ∧ run step s as = some t ∧ Inv t ∧ Goal t := by
  induction hr : rank s using WellFoundedLT.induction generalizing s with
  | ind r ih =>
    rcases hstep s hs with hgoal | ⟨a, s', hP, hs', hinv, hlt⟩
    · exact ⟨[], s, trivial, rfl, hs, hgoal⟩
    · obtain ⟨as, t, hal, hrun, hinv', hgoal⟩ := ih (rank s') (hr ▸ hlt) s' hinv rfl
      refine ⟨a :: as, t, ⟨hP, fun s₁ hs₁ => ?_⟩, run_of_step hs' hrun, hinv', hgoal⟩
      rw [hs'] at hs₁
      cases hs₁
      exact hal

/-- Whichever steps that meet `P` are taken, the goal is reached, and until then
there is such a step. -/
inductive Inevitably (step : σ → α → Option σ) (P : σ → α → Prop) (Goal : σ → Prop) : σ → Prop
  | here {s} (h : Goal s) : Inevitably step P Goal s
  | later {s a s'} (hP : P s a) (hs : step s a = some s')
      (hall : ∀ a s', P s a → step s a = some s' → Inevitably step P Goal s') :
      Inevitably step P Goal s

theorem inevitably_of_rank {ρ : Type*} [LT ρ] [WellFoundedLT ρ] {P : σ → α → Prop}
    {Inv Goal : σ → Prop} (rank : σ → ρ)
    (hlive : ∀ s, Inv s → Goal s ∨ ∃ a s', P s a ∧ step s a = some s')
    (hstep : ∀ s a s', Inv s → P s a → step s a = some s' → Inv s' ∧ rank s' < rank s)
    (s : σ) (hs : Inv s) : Inevitably step P Goal s := by
  induction hr : rank s using WellFoundedLT.induction generalizing s with
  | ind r ih =>
    rcases hlive s hs with hgoal | ⟨a, s', hP, hs'⟩
    · exact .here hgoal
    · refine .later hP hs' fun b t hPb ht => ?_
      obtain ⟨hinv, hlt⟩ := hstep s b t hs hPb ht
      exact ih (rank t) (hr ▸ hlt) t hinv rfl

theorem update_eq_some {ι β : Type*} [DecidableEq ι] {f : ι → Option β} {i j : ι} {x y : β}
    (h : Function.update f i (some y) j = some x) : (j = i ∧ x = y) ∨ (j ≠ i ∧ f j = some x) := by
  by_cases hji : j = i
  · subst hji
    rw [Function.update_self] at h
    injection h with h
    exact .inl ⟨rfl, h.symm⟩
  · rw [Function.update_of_ne hji] at h
    exact .inr ⟨hji, h⟩

end MiddlewareUtils.Lib
