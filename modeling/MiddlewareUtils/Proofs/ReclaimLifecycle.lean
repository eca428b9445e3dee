import MiddlewareUtils.Proofs.ReclaimOwners

/-!
# Every incarnation keeps to the lifecycle

Ownership says that at any time a slot either is claimed by one process or
rests, and both say which phase its incarnation is in. A phase determines
the calls received so far up to the number of sleeps, so the calls of every
created incarnation are a `Lifecycle`, in every state of every run: any
grace, any interleaving of opens, context ends, callbacks and Resets, any
outcome of create and the hooks.
-/

namespace MiddlewareUtils.Reclaim

open Lib

variable {V : Type}

theorem OwnersInv.phase {w : World V} (h : OwnersInv w) (i : ℕ) :
    ∃ ph, Trace ph (calls i w.log) := by
  by_cases hown : ∃ p, Owns (w.procs p) i
  · obtain ⟨p, hp⟩ := hown
    cases hproc : w.procs p with
    | none => rw [hproc] at hp; exact hp.elim
    | some q =>
      rw [hproc] at hp
      obtain ⟨c, hc⟩ := Option.ne_none_iff_exists'.mp hp
      obtain ⟨_, ph, _, hin⟩ := h.meets hproc hc
      exact ⟨ph, hin.trace⟩
  · cases h.owned.rests i fun p hp => hown ⟨p, hp⟩ with
    | resting _ _ hin | ended _ _ hin => exact ⟨_, hin.trace⟩
    | unmade _ _ hcalls => exact ⟨.unborn, (show calls i w.log = [] from hcalls) ▸ .unborn⟩

/-- In every run the hooks of an incarnation that was created are called in the
order of its life: create, then Sleep and Wake by turns, then Close. -/
theorem reclaim_lifecycle {grace : ℤ} {acts : List (Action V)} {w : World V}
    (hrun : run World.step (World.init grace) acts = some w) (i : ℕ)
    (hborn : ⟨.create, .returned⟩ ∈ calls i w.log) : Lifecycle (calls i w.log) := by
  obtain ⟨ph, htr⟩ := (OwnersInv.of_run hrun).phase i
  exact htr.lifecycle hborn

/-- Process `p` takes `n` steps the environment has nothing to say to. -/
def steps (p n : ℕ) : List (Action V) := List.replicate n (.run p .none)

/-- Process `p` opens `key` for context `ctx` and creates the value. -/
def createFor (p ctx : ℕ) (key : String) (v : V) (hooks : Hooks) : List (Action V) :=
  [Action.openKey key ctx false] ++ steps p 2 ++ [Action.run p (.created v hooks)] ++ steps p 3

/-- Context `ctx` ends and process `p` drops its holder until Sleep runs. -/
def dropFor (p ctx : ℕ) : List (Action V) := [.cancel ctx "context canceled"] ++ steps p 4

/-- A value is opened, dropped under zero grace, put to sleep and closed. -/
def openAndClose : List (Action Unit) :=
  createFor 0 0 "key" () Hooks.none ++ dropFor 0 0 ++ steps 0 5

theorem reclaim_lifecycle_zeroGrace : ∃ w : World Unit,
    run World.step (World.init 0) openAndClose = some w ∧
    calls 0 w.log = [⟨.create, .returned⟩, ⟨.sleep, .returned⟩, ⟨.close, .returned⟩] ∧
    Lifecycle (calls 0 w.log) :=
  ⟨_, rfl, by decide +kernel, @reclaim_lifecycle Unit 0 openAndClose _ rfl 0 (by decide +kernel)⟩

end MiddlewareUtils.Reclaim
