import MiddlewareUtils.Lib.Tally
import MiddlewareUtils.SimpleRedis.Moves

/-!
# Turns and live sockets

A turn is a token of `inUseTurns`. A command holds one from the receive in
`borrowSocket` to the `freeInUseTurn` that gives it back, and it does so at
exactly the program counters `Pc.holdsTurn` names. Every step either leaves
both the tokens and the holder alone, takes one token and starts to hold, or
gives one back and stops: so tokens and holders add up to `PoolSize` in
every run, panics included, and there is always room for the token that
comes back. That is the first result.

The second is about sockets. `PoolSize` is meant to cap the parked ones and
the ones in use together. A command that found no parked socket dials, and
when it saw the list empty every other live socket belonged to a command
with a turn of its own; from then on it is counted (`Pc.reserves`), whatever
is parked meanwhile. What breaks the cap is the retry that skips the list:
it dials without having seen the list empty, so its socket comes on top of
the parked ones. The cap holds in every run in which such a retry finds no
more parked sockets than free tokens, and it fails in the run given last.
-/

namespace MiddlewareUtils.SimpleRedis

open Lib

/-! ## What a program counter stands for -/

def Pc.usesSocket : Pc → Bool
  | sweep _ (some _) | dialing | io _ _ _ | hangUp _ _ | stopped _ _ _ | release _ _ _
  | closing _ _ => true
  | _ => false

def Pc.reserves : Pc → Bool
  | sweep _ none | dial => true
  | pc => pc.usesSocket

def Pc.holdsTurn : Pc → Bool
  | takeIdle | refund _ | freeTurn _ => true
  | pc => pc.reserves

theorem Pc.reserves_of_usesSocket {pc : Pc} (h : pc.usesSocket = true) : pc.reserves = true := by
  cases pc with
  | sweep stale reused => cases reused <;> rfl
  | dial => rfl
  | _ => exact h

theorem Pc.holdsTurn_of_reserves {pc : Pc} (h : pc.reserves = true) : pc.holdsTurn = true := by
  cases pc with
  | takeIdle | refund f | freeTurn ran => rfl
  | _ => exact h

def weight (place : Pc → Bool) : Option Proc → ℕ
  | some (.exec _ pc) => (place pc).toNat
  | _ => 0

theorem weight_le {f g : Pc → Bool} (h : ∀ pc, f pc = true → g pc = true) (x : Option Proc) :
    weight f x ≤ weight g x := by
  unfold weight
  split
  next pc =>
    cases hf : f pc with
    | false => exact Nat.zero_le _
    | true => rw [h pc hf]
  · exact Nat.le_refl _

namespace World

theorem tally_set (w : World) (place : Pc → Bool) {p : ℕ} (hp : p < w.next) (proc : Proc) :
    tally (weight place) (Function.update w.procs p (some proc)) w.next + weight place (w.procs p) =
      tally (weight place) w.procs w.next + weight place (some proc) :=
  tally_update hp

/-- How many commands hold a turn. -/
def turnsHeld (w : World) : ℕ := tally (weight Pc.holdsTurn) w.procs w.next

/-- The parked sockets and those a command works with. A socket that has been
swept off `idleConns` and is not closed yet is not counted. -/
def liveSockets (w : World) : ℕ :=
  w.pool.idleConns.length + tally (weight Pc.usesSocket) w.procs w.next

end World

/-! ## What a step does to the tokens -/

def Keeps (cfg : Config) (sr : Pool) (held : Bool) (sr' : Pool) (held' : Bool) : Prop :=
  (held = true → sr.inUseTurns < cfg.liveCap) →
    sr'.inUseTurns + held'.toNat = sr.inUseTurns + held.toNat ∧ sr'.overFrees = sr.overFrees

theorem Keeps.same {cfg : Config} {sr sr' : Pool} {held : Bool}
    (ht : sr'.inUseTurns = sr.inUseTurns) (ho : sr'.overFrees = sr.overFrees) :
    Keeps cfg sr held sr' held := by
  intro _
  rw [ht]
  exact ⟨rfl, ho⟩

theorem Keeps.take {cfg : Config} {sr : Pool} (h : 0 < sr.inUseTurns) :
    Keeps cfg sr false sr.takeTurn true := by
  intro _
  refine ⟨?_, rfl⟩
  show sr.inUseTurns - 1 + 1 = sr.inUseTurns
  omega

theorem Keeps.free {cfg : Config} {sr : Pool} :
    Keeps cfg sr true (sr.freeInUseTurn cfg) false := by
  intro h
  unfold Pool.freeInUseTurn
  rw [if_pos (h rfl)]
  exact ⟨rfl, rfl⟩

theorem Pool.stopWatch_fields (sr : Pool) (s : ℕ) :
    (sr.stopWatch s).inUseTurns = sr.inUseTurns ∧ (sr.stopWatch s).overFrees = sr.overFrees ∧
      (sr.stopWatch s).idleConns = sr.idleConns := by
  unfold Pool.stopWatch
  split
  · exact ⟨rfl, rfl, rfl⟩
  · exact ⟨rfl, rfl, rfl⟩

theorem afterDo_reserves (cfg : Config) (s : ℕ) (reply : Decoded) (reusable : Bool)
    (verb : Verb) : (afterDo cfg s reply reusable verb).usesSocket = true := by
  cases verb with
  | command => rfl
  | auth => cases reply <;> rfl
  | select => cases reply <;> rfl

theorem DoMove.pool_same {env : Env} {sr sr' : Pool} {ctx : Ctx} {args : List Bytes} {tag : Tag}
    {s : ℕ} {stage stage' : Stage} {evs : List Event}
    (h : DoMove env sr ctx args tag s stage sr' stage' evs) :
    sr'.inUseTurns = sr.inUseTurns ∧ sr'.overFrees = sr.overFrees ∧
      sr'.idleConns = sr.idleConns := by
  cases h <;> exact ⟨rfl, rfl, rfl⟩

variable {env : Env} {sr sr' : Pool} {c c' : Call} {pc pc' : Pc} {evs : List Event}

theorem Move.keeps (hm : Move env sr c pc sr' c' pc' evs) :
    Keeps env.cfg sr pc.holdsTurn sr' pc'.holdsTurn := by
  cases hm with
  | turn ht => exact Keeps.take ht
  | waited ht => exact Keeps.take ht
  | refund => exact Keeps.free
  | freeTurn => exact Keeps.free
  | io hdo => exact Keeps.same hdo.pool_same.1 hdo.pool_same.2.1
  | @leave s verb reply reusable =>
    have hheld : (afterDo env.cfg s reply reusable verb).holdsTurn = true :=
      Pc.holdsTurn_of_reserves (Pc.reserves_of_usesSocket (afterDo_reserves ..))
    rw [hheld]
    exact Keeps.same (sr.stopWatch_fields s).1 (sr.stopWatch_fields s).2.1
  | @swept s stale reused => cases reused <;> exact Keeps.same rfl rfl
  | taken =>
    cases (sr.survivors env.cfg env.now).getLast? <;> exact Keeps.same rfl rfl
  | _ => exact Keeps.same rfl rfl

theorem Unwind.keeps (cfg : Config) (hm : Unwind sr pc sr' pc') :
    Keeps cfg sr pc.holdsTurn sr' pc'.holdsTurn := by
  cases hm with
  | @command s =>
    exact Keeps.same (sr.stopWatch_fields s).1 (sr.stopWatch_fields s).2.1
  | @handshake s =>
    exact Keeps.same (sr.stopWatch_fields s).1 (sr.stopWatch_fields s).2.1
  | _ => exact Keeps.same rfl rfl

theorem CloseMove.pool_same {pc pc' : ClosePc} (hm : CloseMove sr pc sr' pc') :
    sr'.inUseTurns = sr.inUseTurns ∧ sr'.overFrees = sr.overFrees ∧
      sr'.idleConns.length ≤ sr.idleConns.length := by
  cases hm with
  | drain => exact ⟨rfl, rfl, Nat.zero_le _⟩
  | _ => exact ⟨rfl, rfl, Nat.le_refl _⟩

/-! ## Tokens and holders add up -/

structure TurnInv (w : World) : Prop where
  known : w.Known
  turns : w.pool.inUseTurns + w.turnsHeld = w.cfg.liveCap
  overFrees : w.pool.overFrees = 0

namespace TurnInv

variable {w : World} {p : ℕ} {proc : Proc}

theorem init (cfg : Config) : TurnInv (World.init cfg) where
  known := .init cfg
  turns := rfl
  overFrees := rfl

theorem room (h : TurnInv w) (hp : w.procs p = some (.exec c pc)) (hheld : pc.holdsTurn = true) :
    w.pool.inUseTurns < w.cfg.liveCap := by
  have hone : weight Pc.holdsTurn (w.procs p) ≤ w.turnsHeld := le_tally (h.known.lt_next hp)
  rw [hp] at hone
  simp only [weight, hheld, Bool.toNat_true] at hone
  have := h.turns
  omega

theorem update (h : TurnInv w) {w' : World} (hp : w.procs p = some proc) {proc' : Proc}
    (hprocs : w'.procs = Function.update w.procs p (some proc')) (hnext : w'.next = w.next)
    (hcfg : w'.cfg = w.cfg)
    (ht : w'.pool.inUseTurns + weight Pc.holdsTurn (some proc') =
      w.pool.inUseTurns + weight Pc.holdsTurn (some proc))
    (ho : w'.pool.overFrees = w.pool.overFrees) : TurnInv w' := by
  refine ⟨h.known.update hp hprocs hnext, ?_, ho.trans h.overFrees⟩
  have htally := w.tally_set Pc.holdsTurn (h.known.lt_next hp) proc'
  have hturns := h.turns
  rw [hp] at htally
  unfold World.turnsHeld at hturns ⊢
  rw [hprocs, hnext, hcfg]
  omega

theorem moved (h : TurnInv w) (hp : w.procs p = some (.exec c pc))
    (hk : Keeps w.cfg w.pool pc.holdsTurn sr pc'.holdsTurn) :
    TurnInv (w.moved p sr (.exec c' pc') evs) := by
  obtain ⟨hturns, hover⟩ := hk (h.room hp)
  exact h.update hp rfl rfl rfl hturns hover

theorem spawned (h : TurnInv w) (hw : weight Pc.holdsTurn (some proc) = 0) :
    TurnInv (w.spawn proc) := by
  refine ⟨h.known.spawned, ?_, h.overFrees⟩
  show w.pool.inUseTurns +
    tally (weight Pc.holdsTurn) (Function.update w.procs w.next _) (w.next + 1) = w.cfg.liveCap
  rw [tally_spawn, hw]
  exact h.turns

theorem step (h : TurnInv w) {w' : World} {a : Action} (hs : w.step a = some w') :
    TurnInv w' := by
  cases World.step_cases hs with
  | exec => exact h.spawned rfl
  | close => exact h.spawned rfl
  | run hp hm => exact h.moved hp hm.keeps
  | runClose hp hm =>
    exact h.update hp rfl rfl rfl hm.pool_same.1 hm.pool_same.2.1
  | panic hp hm => exact h.moved hp (hm.keeps w.cfg)
  | tick => exact ⟨h.known, h.turns, h.overFrees⟩
  | endCtx _ hp => exact h.update hp rfl rfl rfl rfl rfl
  | startWatch => exact ⟨h.known, h.turns, h.overFrees⟩
  | watchClose => exact ⟨h.known, h.turns, h.overFrees⟩
  | answer => exact ⟨h.known, h.turns, h.overFrees⟩
  | cut => exact ⟨h.known, h.turns, h.overFrees⟩

end TurnInv

theorem World.step_cfg {w w' : World} {a : Action} (hs : w.step a = some w') :
    w'.cfg = w.cfg := by
  cases World.step_cases hs <;> rfl

theorem World.run_cfg {w w' : World} {acts : List Action} (hrun : run World.step w acts = some w') :
    w'.cfg = w.cfg := by
  have hinv : ∀ u a u', u.cfg = w.cfg → World.step u a = some u' → u'.cfg = w.cfg :=
    fun _ _ _ hu hs => (World.step_cfg hs).trans hu
  exact run_inv hinv rfl hrun

/-- A command that has not returned. -/
def World.inFlight (w : World) (p : ℕ) : Prop :=
  ∃ c pc, w.procs p = some (.exec c pc) ∧ pc ≠ .done

theorem turnsHeld_of_idle {w : World} (h : ∀ p, ¬ w.inFlight p) : w.turnsHeld = 0 := by
  refine tally_eq_zero fun p _ => ?_
  unfold weight
  split
  next c pc hp =>
    have hdone : pc = .done := by
      by_contra hne
      exact h p ⟨c, pc, hp, hne⟩
    rw [hdone]
    rfl
  · rfl

/-- In every run the free turns and those held are the pool size, no turn is given
back that was not taken, and at rest all are free. -/
theorem turns_conserved {cfg : Config} {w₀ w : World} {acts : List Action}
    (hnew : new cfg = .ok w₀) (hrun : run World.step w₀ acts = some w) :
    ((w.pool.inUseTurns + w.turnsHeld : ℕ) : ℤ) = w₀.cfg.poolSize ∧ w.pool.overFrees = 0 ∧
      ((∀ p, ¬ w.inFlight p) → (w.pool.inUseTurns : ℤ) = w₀.cfg.poolSize) := by
  obtain ⟨hinit, hpos⟩ := new_ok hnew
  have hinv : TurnInv w := by
    rw [hinit] at hrun
    exact run_inv (fun _ _ _ h hs => h.step hs) (.init _) hrun
  have hsum : ((w.pool.inUseTurns + w.turnsHeld : ℕ) : ℤ) = w₀.cfg.poolSize := by
    rw [hinv.turns, World.run_cfg hrun, Config.liveCap_eq hpos]
  refine ⟨hsum, hinv.overFrees, fun hidle => ?_⟩
  rw [turnsHeld_of_idle hidle] at hsum
  exact hsum

/-- A command takes the only turn and panics in the dial. -/
def panicInDial (p : ℕ) : List Action := dialFor p ++ [Action.panic p] ++ quiet p 2

theorem turns_conserved_panic : ∃ w₀ w : World, new oneSocket = .ok w₀ ∧
    run World.step w₀ (panicInDial 0) = some w ∧ w.turnsHeld = 0 ∧
    ((w.pool.inUseTurns + w.turnsHeld : ℕ) : ℤ) = 1 ∧ w.pool.overFrees = 0 :=
  have h := @turns_conserved oneSocket _ _ (panicInDial 0) rfl rfl
  ⟨_, _, rfl, rfl, by decide +kernel, h.1, h.2.1⟩

/-! ## Parked sockets and sockets in use -/

/-- An attempt that passes over the unused list is about to dial. -/
def World.skipsIdle (w : World) (p : ℕ) : Bool :=
  match w.procs p with
  | some (.exec c .takeIdle) => c.skipIdle && !w.pool.closed
  | _ => false

/-- When an attempt dials past the unused list, no more sockets are parked than
tokens are free. -/
def SkipsWithinCap (w : World) : Action → Prop
  | .run p _ => w.skipsIdle p = true → w.pool.idleConns.length ≤ w.pool.inUseTurns
  | _ => True

instance (w : World) : (a : Action) → Decidable (SkipsWithinCap w a)
  | .run p _ =>
    inferInstanceAs (Decidable (w.skipsIdle p = true →
      w.pool.idleConns.length ≤ w.pool.inUseTurns))
  | .exec _ _ | .close | .panic _ | .tick _ | .cancel _ | .expire _ | .startWatch _
  | .watchClose _ | .answer _ _ | .cut _ _ => isTrue trivial

theorem Pool.length_survivors_le (cfg : Config) (now : ℤ) :
    (sr.survivors cfg now).length ≤ sr.idleConns.length := List.length_filter_le ..

theorem Move.reserves (hm : Move env sr c pc sr' c' pc' evs)
    (hskip : pc = .takeIdle → c.skipIdle = true → sr.closed = false →
      sr.idleConns.length ≤ sr.inUseTurns) :
    sr'.idleConns.length + pc'.reserves.toNat ≤ sr.idleConns.length + pc.reserves.toNat ∨
      pc = .takeIdle ∧ sr'.idleConns.length ≤ sr.inUseTurns := by
  cases hm with
  | skipIdle hs hc => exact .inr ⟨rfl, hskip rfl hs hc⟩
  | taken =>
    have hle := sr.length_survivors_le env.cfg env.now
    cases hsurv : sr.survivors env.cfg env.now with
    | nil => exact .inr ⟨rfl, Nat.zero_le _⟩
    | cons s rest =>
      left
      rw [hsurv] at hle
      simp only [List.length_dropLast, List.length_cons, List.getLast?_cons] at hle ⊢
      show rest.length + 1 - 1 + 1 ≤ sr.idleConns.length + 0
      omega
  | refund | freeTurn =>
    left
    unfold Pool.freeInUseTurn
    split <;> exact Nat.le_refl _
  | io hdo =>
    left
    rw [hdo.pool_same.2.2]
    exact Nat.le_refl _
  | @leave s verb reply reusable =>
    left
    rw [(sr.stopWatch_fields s).2.2,
      Pc.reserves_of_usesSocket (afterDo_reserves env.cfg s reply reusable verb)]
    exact Nat.le_refl _
  | @swept s stale reused => left; cases reused <;> exact Nat.le_refl _
  | park =>
    left
    show (sr.idleConns ++ [_]).length + 0 ≤ sr.idleConns.length + 1
    rw [List.length_append]
    exact Nat.le_refl _
  | hangUp | close | dialStop | refusedStop | refused => exact .inl (Nat.le_add_right _ _)
  | _ => exact .inl (Nat.le_refl _)

theorem Unwind.reserves (hm : Unwind sr pc sr' pc') :
    sr'.idleConns.length + pc'.reserves.toNat ≤ sr.idleConns.length + pc.reserves.toNat := by
  cases hm with
  | @command s =>
    rw [(sr.stopWatch_fields s).2.2]
    exact Nat.le_refl _
  | @handshake s =>
    rw [(sr.stopWatch_fields s).2.2]
    exact Nat.le_add_right _ _
  | takeIdle => exact Nat.le_refl _
  | dial | dialing | hangUp => exact Nat.le_add_right _ _

structure CapInv (w : World) : Prop where
  turns : TurnInv w
  cap : w.pool.idleConns.length + tally (weight Pc.reserves) w.procs w.next ≤ w.cfg.liveCap

namespace CapInv

variable {w : World} {p : ℕ} {proc : Proc}

theorem init (cfg : Config) : CapInv (World.init cfg) where
  turns := .init cfg
  cap := Nat.zero_le _

theorem update (h : CapInv w) {w' : World} (ht : TurnInv w') (hp : w.procs p = some proc)
    {proc' : Proc} (hprocs : w'.procs = Function.update w.procs p (some proc'))
    (hnext : w'.next = w.next) (hcfg : w'.cfg = w.cfg)
    (hle : w'.pool.idleConns.length + weight Pc.reserves (some proc') ≤
      w.pool.idleConns.length + weight Pc.reserves (some proc)) : CapInv w' := by
  refine ⟨ht, ?_⟩
  have htally := w.tally_set Pc.reserves (h.turns.known.lt_next hp) proc'
  have hcap := h.cap
  rw [hp] at htally
  rw [hprocs, hnext, hcfg]
  omega

theorem dialled (h : CapInv w) (hp : w.procs p = some (.exec c .takeIdle))
    (ht : TurnInv (w.moved p sr (.exec c' pc') evs))
    (hroom : sr.idleConns.length ≤ w.pool.inUseTurns) :
    CapInv (w.moved p sr (.exec c' pc') evs) := by
  refine ⟨ht, ?_⟩
  have hlt := h.turns.known.lt_next hp
  have htally := w.tally_set Pc.reserves hlt (.exec c' pc')
  have hless : tally (weight Pc.reserves) w.procs w.next < w.turnsHeld :=
    tally_lt (weight_le fun _ => Pc.holdsTurn_of_reserves) hlt (by rw [hp]; exact Nat.one_pos)
  have hone : weight Pc.reserves (some (.exec c' pc')) ≤ 1 := Bool.toNat_le _
  have hturns := h.turns.turns
  show sr.idleConns.length +
    tally (weight Pc.reserves) (Function.update w.procs p _) w.next ≤ w.cfg.liveCap
  omega

theorem spawned (h : CapInv w) (ht : TurnInv (w.spawn proc))
    (hw : weight Pc.reserves (some proc) = 0) : CapInv (w.spawn proc) := by
  refine ⟨ht, ?_⟩
  show w.pool.idleConns.length +
    tally (weight Pc.reserves) (Function.update w.procs w.next _) (w.next + 1) ≤ w.cfg.liveCap
  rw [tally_spawn, hw]
  exact h.cap

theorem step (h : CapInv w) {w' : World} {a : Action} (ha : SkipsWithinCap w a)
    (hs : w.step a = some w') : CapInv w' := by
  have ht := h.turns.step hs
  cases World.step_cases hs with
  | exec => exact h.spawned ht rfl
  | close => exact h.spawned ht rfl
  | run hp hm =>
    have hroom := hm.reserves fun hpc hskip hclosed => ha (by
      rw [hpc] at hp
      simp only [World.skipsIdle, hp, hskip, hclosed]
      rfl)
    rcases hroom with hle | ⟨rfl, hle⟩
    · exact h.update ht hp rfl rfl rfl hle
    · exact h.dialled hp ht hle
  | runClose hp hm => exact h.update ht hp rfl rfl rfl hm.pool_same.2.2
  | panic hp hm => exact h.update ht hp rfl rfl rfl hm.reserves
  | tick => exact ⟨ht, h.cap⟩
  | endCtx _ hp => exact h.update ht hp rfl rfl rfl (Nat.le_refl _)
  | startWatch => exact ⟨ht, h.cap⟩
  | watchClose => exact ⟨ht, h.cap⟩
  | answer => exact ⟨ht, h.cap⟩
  | cut => exact ⟨ht, h.cap⟩

end CapInv

/-- If no more sockets are parked than turns are free whenever a retry dials past
the parked ones, there are at most `PoolSize` sockets, in every run. -/
theorem live_sockets_capped {cfg : Config} {w₀ w : World} {acts : List Action}
    (hnew : new cfg = .ok w₀) (hskip : Along World.step SkipsWithinCap w₀ acts)
    (hrun : run World.step w₀ acts = some w) :
    (w.liveSockets : ℤ) ≤ w₀.cfg.poolSize := by
  obtain ⟨hinit, hpos⟩ := new_ok hnew
  have hinv : CapInv w := by
    rw [hinit] at hrun hskip
    exact run_inv_along (fun _ _ _ h ha hs => h.step ha hs) hskip (.init _) hrun
  have hle : w.liveSockets ≤ w.cfg.liveCap :=
    (Nat.add_le_add_left (tally_le (weight_le fun _ => Pc.reserves_of_usesSocket)) _).trans hinv.cap
  rw [World.run_cfg hrun] at hle
  rw [← Config.liveCap_eq hpos]
  exact_mod_cast hle

/-- A command loses a parked socket, and its retry finds nothing parked. -/
theorem live_sockets_capped_retry : ∃ w₀ w : World, new oneSocket = .ok w₀ ∧
    run World.step w₀ (dialAndPark 0 0 ++ loseParked 1 ++ dialPastIdle 1) = some w ∧
    w.liveSockets = 1 ∧ (w.liveSockets : ℤ) ≤ 1 :=
  ⟨_, _, rfl, rfl, by decide +kernel,
    @live_sockets_capped oneSocket _ _ (dialAndPark 0 0 ++ loseParked 1 ++ dialPastIdle 1) rfl
      (by decide +kernel) rfl⟩

/-- Before the retry another command dials and parks a socket of its own. -/
def dialPastParked : List Action :=
  dialAndPark 0 0 ++ loseParked 1 ++ dialAndPark 2 1 ++ dialPastIdle 1 ++ [Action.run 1 .connected]

/-- The retry dials past the parked socket, and there are two. -/
theorem skip_idle_exceeds_cap : ∃ w₀ w : World, new oneSocket = .ok w₀ ∧
    run World.step w₀ dialPastParked = some w ∧ w₀.cfg.poolSize = 1 ∧
    w.pool.idleConns = [1] ∧ w.liveSockets = 2 :=
  ⟨_, _, rfl, rfl, rfl, by decide +kernel, by decide +kernel⟩

end MiddlewareUtils.SimpleRedis
