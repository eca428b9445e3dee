import MiddlewareUtils.Proofs.SocketLeaks
import MiddlewareUtils.SimpleRedis.Notes

/-!
# What a panic leaves behind

A command that panics has two things to give back, its turn and its socket,
and two deferred calls to do it. `borrowSocket` returns the turn on every
path that does not hand a socket over. Once it has handed one over,
`runOnConn` releases it as not reusable, which closes the socket and returns
the turn. The watcher notes which sockets the command had in its hands when
it was struck and counts the turns it gives back from there.

Wherever the panic strikes the turn comes back, and once. The socket is
another matter. Between the TCP connection and the return of `dial` nobody
but `dial` knows the socket, and `dial` closes it only when `do` returns an
error: a panic inside the AUTH or SELECT exchange goes past that, and the
deferred call of `borrowSocket` returns the turn of a socket that stays
open (`panic_in_auth_leaks`). With panics anywhere else, every socket the
command had is closed and none is lost.

`takeIdleConn` counts as one place. It slices and appends after its only
call, `time.Now`, so whatever panics in it panics before the list has
changed.
-/

namespace MiddlewareUtils.SimpleRedis

open Lib

/-! ## The notes -/

/-- What is noted of a command that panicked. -/
structure Wreck where
  /-- The sockets in hand when a panic struck. -/
  had : Option (List ℕ)
  /-- The turns given back since. -/
  freed : ℕ
  deriving DecidableEq, Repr

def wreckNotes : Notes Wreck where
  start := fun _ _ => ⟨none, 0⟩
  step := fun _ _ _ _ pc g =>
    match pc with
    | .refund _ | .freeTurn _ => { g with freed := g.freed + 1 }
    | _ => g
  panic := fun pc _ => ⟨some pc.hands, 0⟩
  cancel := fun _ _ g => g

def Pc.unwinds : Pc → Option ℕ
  | refund .panicked | closing _ .panicked | freeTurn .panicked => some 0
  | borrowFailed .panicked | ran .panicked => some 1
  | _ => none

theorem afterDo_unwinds (cfg : Config) (s : ℕ) (reply : Decoded) (reusable : Bool) (verb : Verb) :
    (afterDo cfg s reply reusable verb).unwinds = none := by
  cases verb with
  | command => rfl
  | auth | select => cases reply <;> rfl

/-! ## One command -/

def Disposed (sr : Pool) (pc : Pc) (had : List ℕ) : Prop :=
  ∀ s ∈ had, s < sr.nextSocket ∧ ((sr.sockets s).closed = true ∨ s ∈ pc.hands)

structure WreckInv (w : World) (p : ℕ) (g : Wreck) (pc : Pc) : Prop where
  release : ∀ s reusable, pc ≠ .release s .panicked reusable
  unwinds : ∀ n, pc.unwinds = some n →
    g.freed = n ∧ ∃ had, g.had = some had ∧ Disposed w.pool pc had
  reported : .panicked p ∈ w.log →
    pc = .done ∧ g.freed = 1 ∧ ∃ had, g.had = some had ∧ Disposed w.pool .done had

namespace WreckInv

variable {w w' : World} {p : ℕ} {g : Wreck} {inp : Input} {sr : Pool} {c c' : Call} {pc pc' : Pc}
  {evs : List Event}

theorem disposed_freeTurn {cfg : Config} {had : List ℕ} (h : Disposed sr pc had)
    (hhands : pc.hands = []) : Disposed (sr.freeInUseTurn cfg) pc' had := by
  intro s hs
  obtain ⟨hlt, hc⟩ := h s hs
  obtain ⟨hsockets, _, hnext, _⟩ := sr.sockets_freeInUseTurn cfg
  rw [hsockets, hnext]
  refine ⟨hlt, Or.inl (hc.resolve_right ?_)⟩
  rw [hhands]
  exact List.not_mem_nil

theorem own (h : WreckInv w p g pc)
    (hadv : advance (w.env p) w.pool inp c pc = some (sr, c', pc', evs)) :
    WreckInv (w.moved p sr (.exec c' pc') evs) p
      (wreckNotes.step (w.env p) w.pool inp c pc g) pc' := by
  have hm := Move.of_advance hadv
  have hlog : .panicked p ∉ w.log := by
    intro hmem
    obtain ⟨rfl, _⟩ := h.reported hmem
    cases hadv
  refine ⟨fun s reusable hpc' => ?_, fun n hn => ?_, fun hmem => ?_⟩
  · cases hm with
    | @leave _ verb reply =>
      cases verb with
      | command => cases hpc'
      | auth | select => cases reply <;> cases hpc'
    | _ => cases hpc'
  · cases hm with
    | leave => rw [afterDo_unwinds] at hn; cases hn
    | @noRoom s ran =>
      cases ran with
      | returned => cases hn
      | panicked => exact absurd rfl (h.release s true)
    | @dirty s ran =>
      cases ran with
      | returned => cases hn
      | panicked => exact absurd rfl (h.release s false)
    | @park s ran =>
      cases ran with
      | returned => cases hn
      | panicked => exact absurd rfl (h.release s true)
    | @close s ran =>
      cases ran with
      | returned => cases hn
      | panicked =>
        cases hn
        obtain ⟨hfreed, had, hhad, hd⟩ := h.unwinds 0 rfl
        refine ⟨hfreed, had, hhad, fun t ht => ?_⟩
        obtain ⟨hlt, hc⟩ := hd t ht
        refine ⟨hlt, Or.inl ?_⟩
        rcases hc with hc | hmem
        · exact Pool.closed_closeConn hc
        · rw [List.mem_singleton.mp hmem]
          show ((w.pool.closeConn s).sockets s).closed = true
          rw [Pool.closeConn, Pool.sockets_setSocket_self]
    | @refund f =>
      cases f with
      | err => cases hn
      | panicked =>
        cases hn
        obtain ⟨hfreed, had, hhad, hd⟩ := h.unwinds 0 rfl
        exact ⟨congrArg (· + 1) hfreed, had, hhad, disposed_freeTurn hd rfl⟩
    | @freeTurn ran =>
      cases ran with
      | returned => cases hn
      | panicked =>
        cases hn
        obtain ⟨hfreed, had, hhad, hd⟩ := h.unwinds 0 rfl
        exact ⟨congrArg (· + 1) hfreed, had, hhad, disposed_freeTurn hd rfl⟩
    | _ => cases hn
  · have hnew := (List.mem_append.mp hmem).resolve_left hlog
    cases hm with
    | io hdo =>
      cases hdo with
      | sent | unsent | sentBlind => cases List.mem_singleton.mp hnew
      | _ => cases hnew
    | borrowPanicked =>
      obtain ⟨hfreed, had, hhad, hd⟩ := h.unwinds 1 rfl
      exact ⟨rfl, hfreed, had, hhad, hd⟩
    | runPanicked =>
      obtain ⟨hfreed, had, hhad, hd⟩ := h.unwinds 1 rfl
      exact ⟨rfl, hfreed, had, hhad, hd⟩
    | deadOnArrival | exhausted | neverTried | attemptStop | backoffStop | backoffDone
    | borrowGaveUp | succeed | runGaveUp => cases List.mem_singleton.mp hnew
    | _ => cases hnew

theorem unwound (hleak : LeakInv w) (hout : w.handshaking p = false)
    (hp : w.procs p = some (.exec c pc)) (h : WreckInv w p g pc) (hm : Unwind w.pool pc sr pc') :
    WreckInv (w.moved p sr (.exec c pc') []) p (wreckNotes.panic pc g) pc' := by
  simp only [World.handshaking, hp] at hout
  have hhands : pc'.hands = pc.hands := by
    cases hm with
    | takeIdle | dial | dialing | command => rfl
    | handshake hv => exact absurd (of_decide_eq_false hout) (not_not_intro hv)
    | hangUp => cases hout
  refine ⟨fun s reusable hpc' => ?_, fun n hn => ⟨?_, pc.hands, rfl, fun s hs => ?_⟩,
    fun hmem => ?_⟩
  · cases hm <;> cases hpc'
  · cases hm <;> (cases hn; rfl)
  · refine ⟨?_, Or.inr (hhands ▸ hs)⟩
    show s < sr.nextSocket
    rw [hm.hands.2]
    exact hleak.sockets.held p s (World.hands_of hp ▸ hs)
  · rw [show (World.moved ..).log = w.log from List.append_nil _] at hmem
    obtain ⟨rfl, _⟩ := h.reported hmem
    cases hm

theorem elsewhere {a : Action} (h : WreckInv w p g pc) (hs : w.step a = some w')
    (he : w.Elsewhere p w') : WreckInv w' p g pc := by
  have hkeep : ∀ {pc : Pc} {had : List ℕ}, Disposed w.pool pc had → Disposed w'.pool pc had := by
    intro pc had hd s hmem
    obtain ⟨hlt, hc⟩ := hd s hmem
    exact ⟨hlt.trans_le (World.nextSocket_mono hs), hc.imp_left (World.closed_mono hs hlt)⟩
  refine ⟨h.release, fun n hn => ?_, fun hmem => ?_⟩
  · obtain ⟨hfreed, had, hhad, hd⟩ := h.unwinds n hn
    exact ⟨hfreed, had, hhad, hkeep hd⟩
  · obtain ⟨evs, hlog, hevs⟩ := he.log
    rw [hlog] at hmem
    have hold := (List.mem_append.mp hmem).resolve_right fun hnew => hevs _ hnew rfl
    obtain ⟨hpc, hfreed, had, hhad, hd⟩ := h.reported hold
    exact ⟨hpc, hfreed, had, hhad, hkeep hd⟩

theorem keeper : Keeper wreckNotes OutsideHandshake LeakInv fun w p g _ pc =>
    WreckInv w p g pc where
  client := fun h ha hs => h.step ha hs
  start := fun _ _ hlog => ⟨nofun, nofun, fun hmem => absurd rfl (hlog _ hmem)⟩
  own := fun _ _ h hadv => h.own hadv
  unwound := fun hleak hout hp h hm => h.unwound hleak hout hp hm
  cancelled := fun _ _ h => ⟨h.release, h.unwinds, h.reported⟩
  expired := fun _ _ _ _ h => ⟨h.release, h.unwinds, h.reported⟩
  elsewhere := fun _ _ hs he h => h.elsewhere hs he

end WreckInv

/-! ## The unwinding ends -/

section

variable {γ : Type} {n : Notes γ} {s : Noted γ} {p : ℕ} {c : Call}

theorem unwinds_of_run {r : Pc} (hr : r = .borrowFailed .panicked ∨ r = .ran .panicked)
    (hp : s.world.procs p = some (.exec c r)) :
    ∃ acts s', run (Noted.step n) s acts = some s' ∧ .panicked p ∈ s'.world.log := by
  have hmem : Event.panicked p ∈ s.world.log ++ [Event.panicked p] :=
    List.mem_append_right _ (List.mem_singleton_self _)
  rcases hr with rfl | rfl
  · exact ⟨[.run p .none], _, run_of_step (Noted.step_of_advance hp rfl) rfl, hmem⟩
  · exact ⟨[.run p .none], _, run_of_step (Noted.step_of_advance hp rfl) rfl, hmem⟩

theorem unwinds_of_freeTurn (hp : s.world.procs p = some (.exec c (.freeTurn .panicked))) :
    ∃ acts s', run (Noted.step n) s acts = some s' ∧ .panicked p ∈ s'.world.log := by
  have hstep : s.step n (.run p .none) = _ := Noted.step_of_advance hp rfl
  obtain ⟨acts, s', hrun, hmem⟩ := unwinds_of_run (n := n) (s := ⟨_, s.note n (.run p .none)⟩)
    (Or.inr rfl) World.procs_moved_self
  exact ⟨_ :: acts, s', run_of_step hstep hrun, hmem⟩

theorem unwinds_finish {pc : Pc} {k : ℕ} (hp : s.world.procs p = some (.exec c pc))
    (hpc : pc.unwinds = some k) :
    ∃ acts s', run (Noted.step n) s acts = some s' ∧ .panicked p ∈ s'.world.log := by
  cases pc with
  | refund f =>
    cases f with
    | err => cases hpc
    | panicked =>
      have hstep : s.step n (.run p .none) = _ := Noted.step_of_advance hp rfl
      obtain ⟨acts, s', hrun, hmem⟩ := unwinds_of_run (n := n)
        (s := ⟨_, s.note n (.run p .none)⟩) (Or.inl rfl) World.procs_moved_self
      exact ⟨_ :: acts, s', run_of_step hstep hrun, hmem⟩
  | closing t r =>
    cases r with
    | returned => cases hpc
    | panicked =>
      have hstep : s.step n (.run p .none) = _ := Noted.step_of_advance hp rfl
      obtain ⟨acts, s', hrun, hmem⟩ := unwinds_of_freeTurn (n := n)
        (s := ⟨_, s.note n (.run p .none)⟩) World.procs_moved_self
      exact ⟨_ :: acts, s', run_of_step hstep hrun, hmem⟩
  | freeTurn r =>
    cases r with
    | returned => cases hpc
    | panicked => exact unwinds_of_freeTurn hp
  | borrowFailed f =>
    cases f with
    | err => cases hpc
    | panicked => exact unwinds_of_run (Or.inl rfl) hp
  | ran r =>
    cases r with
    | returned => cases hpc
    | panicked => exact unwinds_of_run (Or.inr rfl) hp
  | _ => cases hpc

end

/-! ## The result -/

/-- What is left of the panics of a client. -/
structure PanicsRelease (s : Noted Wreck) : Prop where
  /-- A command that has unwound gave its turn back once, and what it had is
  closed. -/
  released : ∀ p c pc, s.world.procs p = some (.exec c pc) → .panicked p ∈ s.world.log →
    (s.notes p).freed = 1 ∧ ∃ had, (s.notes p).had = some had ∧
      ∀ x ∈ had, (s.world.pool.sockets x).closed = true ∧ x ∉ s.world.pool.idleConns
  finishes : ∀ p c pc, s.world.procs p = some (.exec c pc) → pc.unwinds ≠ none →
    ∃ acts s', run (Noted.step wreckNotes) s acts = some s' ∧ .panicked p ∈ s'.world.log
  /-- No turn came back to a full pool. -/
  turns : s.world.pool.overFrees = 0 ∧
    s.world.pool.inUseTurns + s.world.turnsHeld = s.world.cfg.liveCap
  /-- No socket is lost. -/
  sockets : ∀ x < s.world.pool.nextSocket, (s.world.pool.sockets x).closed = false →
    x ∈ s.world.pool.idleConns ∨ ∃ q, x ∈ s.world.hands q

/-- Whatever panics strike outside a handshake, each gives back its turn once and
leaves no socket open that nobody has. -/
theorem panics_release {cfg : Config} {w₀ : World} {s : Noted Wreck} {acts : List Action}
    (hnew : new cfg = .ok w₀)
    (hout : Along (Noted.step wreckNotes) (fun s a => OutsideHandshake s.world a)
      (.init wreckNotes w₀) acts)
    (hrun : run (Noted.step wreckNotes) (.init wreckNotes w₀) acts = some s) :
    PanicsRelease s := by
  obtain ⟨hinit, _⟩ := new_ok hnew
  obtain ⟨hnonneg, _⟩ := new_trim hnew
  rw [hinit] at hrun hout
  have hinv := WreckInv.keeper.run (.init hnonneg) hout hrun
  have hturns : TurnInv s.world := by
    have hstep : ∀ (u : Noted Wreck) a u', TurnInv u.world → u.step wreckNotes a = some u' →
        TurnInv u'.world := by
      intro u a u' hu hs
      obtain ⟨w, hw, rfl⟩ := Option.map_eq_some_iff.mp hs
      exact hu.step hw
    exact run_inv hstep (.init _) hrun
  refine ⟨fun p c pc hp hmem => ?_, fun p c pc hp hpc => ?_, ⟨hturns.overFrees, hturns.turns⟩,
    hinv.client.kept⟩
  · obtain ⟨_, hfreed, had, hhad, hd⟩ := (hinv.commands p c pc hp).reported hmem
    refine ⟨hfreed, had, hhad, fun x hx => ?_⟩
    have hc := (hd x hx).2.resolve_right List.not_mem_nil
    refine ⟨hc, fun hidle => ?_⟩
    rw [(hinv.client.parked x hidle).1] at hc
    cases hc
  · obtain ⟨k, hk⟩ := Option.ne_none_iff_exists'.mp hpc
    exact unwinds_finish hp hk

/-- A command panics while it waits for its reply. -/
def panicInRead : List Action :=
  dialFor 0 ++ [Action.run 0 .connected] ++ sendFor 0 ++ [Action.panic 0] ++ quiet 0 3

theorem panics_release_inRead : ∃ w₀ s, new oneSocket = .ok w₀ ∧
    run (Noted.step wreckNotes) (.init wreckNotes w₀) panicInRead = some s ∧
    s.notes 0 = ⟨some [0], 1⟩ ∧ (s.world.pool.sockets 0).closed = true ∧ PanicsRelease s :=
  ⟨_, _, rfl, rfl, by decide +kernel, by decide +kernel,
    @panics_release oneSocket _ _ panicInRead rfl (by decide +kernel) rfl⟩

/-- A client with a password. -/
def withPass : Config := { oneSocket with pass := ascii "secret" }

/-- A command dials, writes AUTH and panics in the exchange. -/
def panicInAuth : List Action :=
  dialFor 0 ++ [Action.run 0 .connected] ++ sendFor 0 ++ [Action.panic 0] ++ quiet 0 2

/-- The turn is back, and the socket is open with nobody who could close it. -/
theorem panic_in_auth_leaks : ∃ w₀ s c, new withPass = .ok w₀ ∧
    run (Noted.step wreckNotes) (.init wreckNotes w₀) panicInAuth = some s ∧
    s.world.procs 0 = some (.exec c .done) ∧ .panicked 0 ∈ s.world.log ∧
    s.notes 0 = ⟨some [0], 1⟩ ∧ (s.world.pool.sockets 0).closed = false ∧
    s.world.pool.idleConns = [] ∧ s.world.hands 0 = [] ∧ ¬ PanicsRelease s := by
  refine ⟨_, _, _, rfl, rfl, rfl, @List.mem_of_getElem? _ _ 1 _ rfl, by decide +kernel,
    by decide +kernel, by decide +kernel, rfl, fun h => ?_⟩
  obtain ⟨_, had, hhad, hclosed⟩ := h.released 0 _ _ rfl (@List.mem_of_getElem? _ _ 1 _ rfl)
  cases hhad
  exact absurd (hclosed 0 List.mem_cons_self).1 (by decide +kernel)

end MiddlewareUtils.SimpleRedis
