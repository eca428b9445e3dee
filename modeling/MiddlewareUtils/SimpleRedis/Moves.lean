import MiddlewareUtils.SimpleRedis.Client

/-!
# What a step on a client can be

The step functions taken apart once. `DoMove` has one constructor for each
branch of `do`, `Move` one for each branch of `exec` around it, `Unwind` one
for each place a panic can leave from, and `CloseMove` is `Close`. Each
constructor has the guard its branch was entered under and what it leaves.
`World.step_cases` puts them together; the invariants go by cases on what it
returns and look into no step function again.
-/

namespace MiddlewareUtils.SimpleRedis

open Lib Function

/-! ## `do` -/

inductive DoMove (env : Env) (sr : Pool) (ctx : Ctx) (args : List Bytes) (tag : Tag) (s : ℕ) :
    Stage → Pool → Stage → List Event → Prop
  | stop {e} (he : contextStop ctx env.now = some e) :
      DoMove env sr ctx args tag s .enter sr (.leave (.error (.context e)) false) []
  | go (he : contextStop ctx env.now = none) :
      DoMove env sr ctx args tag s .enter sr .budget []
  | spent {e} (hb : commandBudgetLeft env ctx ≤ 0) (he : contextStop ctx env.now = some e) :
      DoMove env sr ctx args tag s .budget sr (.leave (.error (.context e)) false) []
  | spentTimeout (hb : commandBudgetLeft env ctx ≤ 0) (he : contextStop ctx env.now = none) :
      DoMove env sr ctx args tag s .budget sr (.leave (.error .timeout) false) []
  | afford (hb : ¬ commandBudgetLeft env ctx ≤ 0) :
      DoMove env sr ctx args tag s .budget sr .arm []
  | noDeadline :
      DoMove env sr ctx args tag s .arm sr (.leave (.error .unreachable) false) []
  | armed (hbuf : (sr.sockets s).buffer = []) :
      DoMove env sr ctx args tag s .arm (sr.armWatch s) .write []
  | leftover (hbuf : (sr.sockets s).buffer ≠ []) :
      DoMove env sr ctx args tag s .arm (sr.armWatch s) (.leave (.error .unreachable) false) []
  | sent :
      DoMove env sr ctx args tag s .write (sr.deliver s tag) .read [.written tag args]
  | unsent {e} :
      DoMove env sr ctx args tag s .write sr
        (.leave (.error (ioOrContext ctx env.now e)) false) [.written tag args]
  | sentBlind {e} :
      DoMove env sr ctx args tag s .write (sr.deliver s tag)
        (.leave (.error (ioOrContext ctx env.now e)) false) [.written tag args]
  | arrive {n} (hmore : readReply (sr.sockets s).buffer = .more)
      (hpos : 0 < n) (hn : n ≤ (sr.sockets s).wire.length) :
      DoMove env sr ctx args tag s .read (sr.fill s n) .read []
  | readFailed {e} (hmore : readReply (sr.sockets s).buffer = .more) :
      DoMove env sr ctx args tag s .read sr
        (.leave (.error (ioOrContext ctx env.now e)) false) []
  | refused {e} (hfail : readReply (sr.sockets s).buffer = .fail e) :
      DoMove env sr ctx args tag s .read sr (afterRead ctx env.now (.error e) false) []
  | replied {reply rest} (hdone : readReply (sr.sockets s).buffer = .done reply rest) :
      DoMove env sr ctx args tag s .read (sr.consume s rest)
        (afterRead ctx env.now reply (rest = [])) []

theorem DoMove.of_doStep {env : Env} {sr sr' : Pool} {inp : Input} {ctx : Ctx}
    {args : List Bytes} {tag : Tag} {s : ℕ} {stage stage' : Stage} {evs : List Event}
    (h : doStep env sr inp ctx args tag s stage = some (sr', stage', evs)) :
    DoMove env sr ctx args tag s stage sr' stage' evs := by
  cases stage with
  | enter =>
    simp only [doStep] at h
    split at h
    next he => cases h; exact .stop he
    next he => cases h; exact .go he
  | budget =>
    simp only [doStep] at h
    split at h
    next hb =>
      split at h
      next he => cases h; exact .spent hb he
      next he => cases h; exact .spentTimeout hb he
    next hb => cases h; exact .afford hb
  | arm =>
    simp only [doStep] at h
    split at h
    · cases h; exact .noDeadline
    · split at h
      next hbuf => cases h; exact .armed hbuf
      next hbuf => cases h; exact .leftover hbuf
    · cases h
  | write =>
    simp only [doStep] at h
    split at h
    · cases h; exact .sent
    next delivered e =>
      cases delivered with
      | true => cases h; exact .sentBlind
      | false => cases h; exact .unsent
    · cases h
  | read =>
    simp only [doStep] at h
    split at h
    next hmore =>
      split at h
      · split at h
        next hn => cases h; exact .arrive hmore hn.1 hn.2
        · cases h
      · cases h; exact .readFailed hmore
      · cases h
    next hfail => cases h; exact .refused hfail
    next hdone => cases h; exact .replied hdone
  | leave reply reusable => cases h

/-! ## `exec` -/

inductive Move (env : Env) (sr : Pool) (c : Call) :
    Pc → Pool → Call → Pc → List Event → Prop
  | deadOnArrival {e} (he : c.ctx.err = some e) :
      Move env sr c .start sr c .done [.returned env.p (.error (.context e))]
  | bind (he : c.ctx.err = none) :
      Move env sr c .start sr (bindCommandDeadline env.cfg env.now c) .attempt []
  | exhausted {e} (hr : retryLimit env.cfg.maxRetries < c.attempt) (hl : c.last = some e) :
      Move env sr c .attempt sr c .done (fails env.p c e)
  | neverTried (hr : retryLimit env.cfg.maxRetries < c.attempt) (hl : c.last = none) :
      Move env sr c .attempt sr c .done [.returned env.p (.error .timeout)]
  | attemptStop {e} (hr : c.attempt ≤ retryLimit env.cfg.maxRetries)
      (he : contextStop c.ctx env.now = some e) :
      Move env sr c .attempt sr c .done (fails env.p c (.context e))
  | retry (hr : c.attempt ≤ retryLimit env.cfg.maxRetries)
      (he : contextStop c.ctx env.now = none) (hn : 0 < c.attempt) :
      Move env sr c .attempt sr c .backoff []
  | first (hr : c.attempt ≤ retryLimit env.cfg.maxRetries)
      (he : contextStop c.ctx env.now = none) (hn : c.attempt = 0) :
      Move env sr c .attempt sr c .borrow []
  | backoffStop {e} (he : contextStop c.ctx env.now = some e) :
      Move env sr c .backoff sr c .done (fails env.p c (.context e))
  | backoffOver (he : contextStop c.ctx env.now = none) :
      Move env sr c .backoff sr c .borrow []
  | backoffDone {e} (he : c.ctx.err = some e) :
      Move env sr c .backoff sr c .done (fails env.p c (.context e))
  | borrowClosed (hc : sr.closed = true) :
      Move env sr c .borrow sr c (.borrowFailed (.err .unreachable false)) []
  | borrow (hc : sr.closed = false) :
      Move env sr c .borrow sr c .borrowCtx []
  | borrowStop {e} (he : contextStop c.ctx env.now = some e) :
      Move env sr c .borrowCtx sr c (.borrowFailed (.err (.context e) false)) []
  | borrowGo (he : contextStop c.ctx env.now = none) :
      Move env sr c .borrowCtx sr c .takeTurn []
  | turn (ht : 0 < sr.inUseTurns) :
      Move env sr c .takeTurn sr.takeTurn c .takeIdle []
  | wait (ht : sr.inUseTurns = 0) :
      Move env sr c .takeTurn sr c .waitTurn []
  | waited (ht : 0 < sr.inUseTurns) :
      Move env sr c .waitTurn sr.takeTurn c .takeIdle []
  | waitDone {e} (he : c.ctx.err = some e) :
      Move env sr c .waitTurn sr c (.borrowFailed (.err (.context e) false)) []
  | waitStop {e} (he : contextStop c.ctx env.now = some e) :
      Move env sr c .waitTurn sr c (.borrowFailed (.err (.context e) false)) []
  | waitOver (he : contextStop c.ctx env.now = none) :
      Move env sr c .waitTurn sr c (.borrowFailed (.err .poolWait false)) []
  | shut (hc : sr.closed = true) :
      Move env sr c .takeIdle sr c (.refund (.err .unreachable false)) []
  | skipIdle (hskip : c.skipIdle = true) (hc : sr.closed = false) :
      Move env sr c .takeIdle sr c .dial []
  | taken (hskip : c.skipIdle = false) (hc : sr.closed = false) :
      Move env sr c .takeIdle { sr with idleConns := (sr.survivors env.cfg env.now).dropLast } c
        (.sweep (sr.stale env.cfg env.now) (sr.survivors env.cfg env.now).getLast?) []
  | swept {s stale reused} :
      Move env sr c (.sweep (s :: stale) reused) (sr.closeConn s) c (.sweep stale reused) []
  | reuse {s} :
      Move env sr c (.sweep [] (some s)) sr { c with fromIdle := true } (.io s .command .enter) []
  | miss : Move env sr c (.sweep [] none) sr c .dial []
  | dialStop {e} (he : contextStop c.ctx env.now = some e) :
      Move env sr c .dial sr c (.refund (.err (.context e) false)) []
  | dial (he : contextStop c.ctx env.now = none) :
      Move env sr c .dial sr c .dialing []
  | connected :
      Move env sr c .dialing sr.openConn { c with fromIdle := false }
        (.io sr.nextSocket (firstVerb env.cfg) .enter) []
  | refusedStop {e} (he : contextStop c.ctx env.now = some e) :
      Move env sr c .dialing sr c (.refund (.err (.context e) false)) []
  | refused (he : contextStop c.ctx env.now = none) :
      Move env sr c .dialing sr c (.refund (.err .unreachable false)) []
  | io {s verb stage sr' stage' evs}
      (hdo : DoMove env sr c.ctx (verb.args env.cfg c) ⟨env.p, c.attempt, verb⟩ s
        stage sr' stage' evs) :
      Move env sr c (.io s verb stage) sr' c (.io s verb stage') evs
  | leave {s verb reply reusable} :
      Move env sr c (.io s verb (.leave reply reusable)) (sr.stopWatch s) c
        (afterDo env.cfg s reply reusable verb) []
  | hangUp {s e} : Move env sr c (.hangUp s e) (sr.closeConn s) c (.refund (.err e true)) []
  | refund {f} : Move env sr c (.refund f) (sr.freeInUseTurn env.cfg) c (.borrowFailed f) []
  | borrowGaveUp {e hs} (hstop : sr.closed = true ∨ shouldRetry e hs = false) :
      Move env sr c (.borrowFailed (.err e hs)) sr c .done (fails env.p c e)
  | borrowAgain {e hs} (hc : sr.closed = false) (hretry : shouldRetry e hs = true) :
      Move env sr c (.borrowFailed (.err e hs)) sr (c.again e) .attempt []
  | borrowPanicked :
      Move env sr c (.borrowFailed .panicked) sr c .done [.panicked env.p]
  | lateStop {s reply reusable e} (he : contextStop c.ctx env.now = some e) :
      Move env sr c (.stopped s reply reusable) sr c
        (.release s (.returned (.error (.context e))) false) []
  | inTime {s reply reusable} (he : contextStop c.ctx env.now = none) :
      Move env sr c (.stopped s reply reusable) sr c (.release s (.returned reply) reusable) []
  | park {s ran} (hc : sr.closed = false) (hlen : sr.idleConns.length < env.cfg.maxIdleConns) :
      Move env sr c (.release s ran true)
        { sr.stamp s env.now with idleConns := sr.idleConns ++ [s] } c (.freeTurn ran) []
  | noRoom {s ran} (hfull : sr.closed = true ∨ env.cfg.maxIdleConns ≤ sr.idleConns.length) :
      Move env sr c (.release s ran true) (sr.stamp s env.now) c (.closing s ran) []
  | dirty {s ran} : Move env sr c (.release s ran false) sr c (.closing s ran) []
  | close {s ran} : Move env sr c (.closing s ran) (sr.closeConn s) c (.freeTurn ran) []
  | freeTurn {ran} : Move env sr c (.freeTurn ran) (sr.freeInUseTurn env.cfg) c (.ran ran) []
  | succeed {values} :
      Move env sr c (.ran (.returned (.ok values))) sr c .done [.returned env.p (.ok values)]
  | runAgain {e} (hretry : shouldRetry e false = true) :
      Move env sr c (.ran (.returned (.error e))) sr ((c.noteDead e).again e) .attempt []
  | runGaveUp {e} (hretry : shouldRetry e false = false) :
      Move env sr c (.ran (.returned (.error e))) sr (c.noteDead e) .done (fails env.p c e)
  | runPanicked : Move env sr c (.ran .panicked) sr c .done [.panicked env.p]

theorem Move.of_advance {env : Env} {sr sr' : Pool} {inp : Input} {c c' : Call} {pc pc' : Pc}
    {evs : List Event} (h : advance env sr inp c pc = some (sr', c', pc', evs)) :
    Move env sr c pc sr' c' pc' evs := by
  cases pc with
  | start =>
    simp only [advance] at h
    split at h
    next he => cases h; exact .deadOnArrival he
    next he => cases h; exact .bind he
  | attempt =>
    simp only [advance] at h
    split at h
    next hr =>
      split at h
      next hl => cases h; exact .exhausted hr hl
      next hl => cases h; exact .neverTried hr hl
    next hr =>
      have hr := not_lt.mp hr
      split at h
      next he => cases h; exact .attemptStop hr he
      next he =>
        split at h
        next hn => cases h; exact .retry hr he hn
        next hn => cases h; exact .first hr he (Nat.eq_zero_of_not_pos hn)
  | backoff =>
    simp only [advance] at h
    split at h
    · split at h
      next he => cases h; exact .backoffStop he
      next he => cases h; exact .backoffOver he
    · split at h
      next he => cases h; exact .backoffDone he
      · cases h
    · cases h
  | borrow =>
    simp only [advance] at h
    split at h
    next hc => cases h; exact .borrowClosed hc
    next hc => cases h; exact .borrow (eq_false_of_ne_true hc)
  | borrowCtx =>
    simp only [advance] at h
    split at h
    next he => cases h; exact .borrowStop he
    next he => cases h; exact .borrowGo he
  | takeTurn =>
    simp only [advance] at h
    split at h
    next ht => cases h; exact .turn ht
    next ht => cases h; exact .wait (Nat.eq_zero_of_not_pos ht)
  | waitTurn =>
    simp only [advance] at h
    split at h
    · split at h
      next ht => cases h; exact .waited ht
      · cases h
    · split at h
      next he => cases h; exact .waitDone he
      · cases h
    · split at h
      next he => cases h; exact .waitStop he
      next he => cases h; exact .waitOver he
    · cases h
  | takeIdle =>
    simp only [advance] at h
    split at h
    next hskip =>
      split at h
      next hc => cases h; exact .shut hc
      next hc => cases h; exact .skipIdle hskip (eq_false_of_ne_true hc)
    next hskip =>
      unfold Pool.takeIdleConn at h
      by_cases hc : sr.closed = true
      · rw [if_pos hc] at h; cases h; exact .shut hc
      · rw [if_neg hc] at h
        cases h
        exact .taken (eq_false_of_ne_true hskip) (eq_false_of_ne_true hc)
  | sweep stale reused =>
    cases stale with
    | cons s stale => cases h; exact .swept
    | nil =>
      cases reused with
      | some s => cases h; exact .reuse
      | none => cases h; exact .miss
  | dial =>
    simp only [advance] at h
    split at h
    next he => cases h; exact .dialStop he
    next he => cases h; exact .dial he
  | dialing =>
    simp only [advance] at h
    split at h
    · cases h; exact .connected
    · split at h
      next he => cases h; exact .refusedStop he
      next he => cases h; exact .refused he
    · cases h
  | io s verb stage =>
    simp only [advance] at h
    split at h
    · cases h; exact .leave
    · split at h
      next hdo => cases h; exact .io (.of_doStep hdo)
      · cases h
  | hangUp s e => cases h; exact .hangUp
  | refund f => cases h; exact .refund
  | borrowFailed f =>
    cases f with
    | panicked => cases h; exact .borrowPanicked
    | err e hs =>
      simp only [advance] at h
      split at h
      next hstop => cases h; exact .borrowGaveUp hstop
      next hstop =>
        obtain ⟨hc, hretry⟩ := not_or.mp hstop
        cases h
        exact .borrowAgain (eq_false_of_ne_true hc) (Bool.eq_true_of_not_eq_false hretry)
  | stopped s reply reusable =>
    simp only [advance] at h
    split at h
    next he => cases h; exact .lateStop he
    next he => cases h; exact .inTime he
  | release s ran reusable =>
    cases reusable with
    | false => cases h; exact .dirty
    | true =>
      simp only [advance, Pool.parkIdleConn] at h
      by_cases hfull : (sr.stamp s env.now).closed = true ∨
          env.cfg.maxIdleConns ≤ (sr.stamp s env.now).idleConns.length
      · rw [if_pos trivial, if_pos hfull] at h; cases h; exact .noRoom hfull
      · rw [if_pos trivial, if_neg hfull] at h
        obtain ⟨hc, hlen⟩ := not_or.mp hfull
        cases h
        exact .park (eq_false_of_ne_true hc) (not_le.mp hlen)
  | closing s ran => cases h; exact .close
  | freeTurn ran => cases h; exact .freeTurn
  | ran ran =>
    cases ran with
    | panicked => cases h; exact .runPanicked
    | returned reply =>
      cases reply with
      | ok values => cases h; exact .succeed
      | error e =>
        simp only [advance] at h
        split at h
        next hretry => cases h; exact .runAgain hretry
        next hretry => cases h; exact .runGaveUp (eq_false_of_ne_true hretry)
  | done => cases h

/-! ## Panics and `Close` -/

inductive Unwind (sr : Pool) : Pc → Pool → Pc → Prop
  | takeIdle : Unwind sr .takeIdle sr (.refund .panicked)
  | dial : Unwind sr .dial sr (.refund .panicked)
  | dialing : Unwind sr .dialing sr (.refund .panicked)
  | command {s stage} :
      Unwind sr (.io s .command stage) (sr.stopWatch s) (.closing s .panicked)
  | handshake {s verb stage} (hv : verb ≠ .command) :
      Unwind sr (.io s verb stage) (sr.stopWatch s) (.refund .panicked)
  | hangUp {s e} : Unwind sr (.hangUp s e) sr (.refund .panicked)

theorem Unwind.of_unwind {sr sr' : Pool} {pc pc' : Pc} (h : unwind sr pc = some (sr', pc')) :
    Unwind sr pc sr' pc' := by
  cases pc with
  | takeIdle => cases h; exact .takeIdle
  | dial => cases h; exact .dial
  | dialing => cases h; exact .dialing
  | io s verb stage =>
    cases verb with
    | auth => cases h; exact .handshake nofun
    | select => cases h; exact .handshake nofun
    | command => cases h; exact .command
  | hangUp s e => cases h; exact .hangUp
  | _ => cases h

inductive CloseMove (sr : Pool) : ClosePc → Pool → ClosePc → Prop
  | again (hc : sr.closed = true) : CloseMove sr .flag sr .done
  | flag (hc : sr.closed = false) : CloseMove sr .flag { sr with closed := true } .drain
  | drain : CloseMove sr .drain { sr with idleConns := [] } (.each sr.idleConns)
  | close {s rest} : CloseMove sr (.each (s :: rest)) (sr.closeConn s) (.each rest)
  | finish : CloseMove sr (.each []) sr .done

theorem CloseMove.of_advanceClose {sr sr' : Pool} {pc pc' : ClosePc}
    (h : advanceClose sr pc = some (sr', pc')) : CloseMove sr pc sr' pc' := by
  cases pc with
  | flag =>
    simp only [advanceClose] at h
    split at h
    next hc => cases h; exact .again hc
    next hc => cases h; exact .flag (eq_false_of_ne_true hc)
  | drain => cases h; exact .drain
  | each idleConns =>
    cases idleConns with
    | nil => cases h; exact .finish
    | cons s rest => cases h; exact .close
  | done => cases h

/-! ## Whose events they are -/

def Event.of (p : ℕ) : Event → Prop
  | .written tag _ => tag.caller = p
  | .returned q _ => q = p
  | .panicked q => q = p
  | .answered _ _ => False

theorem Event.of_inj {ev : Event} {p q : ℕ} (hp : ev.of p) (hq : ev.of q) : q = p := by
  cases ev with
  | answered tag r => exact hp.elim
  | _ => exact Eq.trans (Eq.symm hq) hp

theorem Move.events_own {env : Env} {sr sr' : Pool} {c c' : Call} {pc pc' : Pc}
    {evs : List Event} (hm : Move env sr c pc sr' c' pc' evs) : ∀ ev ∈ evs, ev.of env.p := by
  intro ev hev
  cases hm with
  | io hdo =>
    cases hdo with
    | sent | unsent | sentBlind => cases List.mem_singleton.mp hev; rfl
    | _ => exact absurd hev List.not_mem_nil
  | deadOnArrival | exhausted | neverTried | attemptStop | backoffStop | backoffDone
  | borrowGaveUp | borrowPanicked | succeed | runGaveUp | runPanicked =>
    cases List.mem_singleton.mp hev
    rfl
  | _ => exact absurd hev List.not_mem_nil

/-! ## Steps of the world -/

namespace World

/-- The world after a process has moved. -/
def moved (w : World) (p : ℕ) (sr : Pool) (proc : Proc) (evs : List Event) : World :=
  ({ w with pool := sr, log := w.log ++ evs } : World).setProc p proc

theorem procs_moved_self {w : World} {p : ℕ} {sr : Pool} {proc : Proc} {evs : List Event} :
    (w.moved p sr proc evs).procs p = some proc :=
  update_self ..

theorem procs_moved_of_ne {w : World} {p q : ℕ} {sr : Pool} {proc : Proc} {evs : List Event}
    (hq : q ≠ p) : (w.moved p sr proc evs).procs q = w.procs q :=
  update_of_ne hq ..

def answered (w : World) (s : ℕ) (tag : Tag) (owed : List Tag) (r : Reply) : World :=
  { w.setSocket s { w.pool.sockets s with
      wire := (w.pool.sockets s).wire ++ r.encode, owed := owed } with
    log := w.log ++ [Event.answered tag r] }

inductive Steps (w : World) : Action → World → Prop
  | exec {args ctx} : Steps w (.exec args ctx) (w.spawn (.exec (.begin args ctx) .start))
  | close : Steps w .close (w.spawn (.close .flag))
  | run {p inp c pc sr c' pc' evs} (hp : w.procs p = some (.exec c pc))
      (hm : Move (w.env p) w.pool c pc sr c' pc' evs) :
      Steps w (.run p inp) (w.moved p sr (.exec c' pc') evs)
  | runClose {p inp pc sr pc'} (hp : w.procs p = some (.close pc))
      (hm : CloseMove w.pool pc sr pc') :
      Steps w (.run p inp) (w.moved p sr (.close pc') [])
  | panic {p c pc sr pc'} (hp : w.procs p = some (.exec c pc)) (hm : Unwind w.pool pc sr pc') :
      Steps w (.panic p) (w.moved p sr (.exec c pc') [])
  | tick {elapsed : ℕ} : Steps w (.tick elapsed) { w with now := w.now + elapsed }
  | endCtx {a p c pc e} (ha : a = .cancel p ∨ a = .expire p) (hp : w.procs p = some (.exec c pc))
      (hnone : c.ctx.err = none)
      (hdue : e = .deadlineExceeded → ∃ d ∈ c.ctx.deadline, d ≤ w.now) :
      Steps w a (w.setProc p (.exec { c with ctx := { c.ctx with err := some e } } pc))
  | startWatch {p c s verb stage} (hp : w.procs p = some (.exec c (.io s verb stage)))
      (he : c.ctx.err.isSome) (hw : (w.pool.sockets s).watch = .armed) :
      Steps w (.startWatch p) (w.setSocket s { w.pool.sockets s with watch := .started })
  | watchClose {s} (hw : (w.pool.sockets s).watch = .started) :
      Steps w (.watchClose s) { w with pool := w.pool.closeConn s }
  | answer {s r tag owed} (howed : (w.pool.sockets s).owed = tag :: owed)
      (hended : (w.pool.sockets s).ended = false) (hwf : r.wellFormed = true) :
      Steps w (.answer s r) (w.answered s tag owed r)
  | cut {s n} : Steps w (.cut s n) (w.runCut s n)

theorem moved_nil {w : World} {p : ℕ} {sr : Pool} {proc : Proc} :
    w.moved p sr proc [] = ({ w with pool := sr } : World).setProc p proc := by
  unfold moved
  rw [List.append_nil]

theorem endCtx_cases {w w' : World} {a : Action} {p : ℕ} {e : CtxErr}
    (ha : a = .cancel p ∨ a = .expire p) (h : w.endCtx p e = some w') : w.Steps a w' := by
  simp only [endCtx] at h
  split at h
  next hp =>
    split at h
    next hg => cases h; exact .endCtx ha hp hg.1 hg.2
    · cases h
  · cases h

theorem step_cases {w w' : World} {a : Action} (h : w.step a = some w') : w.Steps a w' := by
  cases a with
  | exec args ctx => cases h; exact .exec
  | close => cases h; exact .close
  | run p inp =>
    simp only [step, runProc] at h
    split at h
    · cases h
    next c pc hp =>
      split at h
      · cases h
      next hadv => cases h; exact .run hp (.of_advance hadv)
    next pc hp =>
      split at h
      · cases h
      next sr pc' hadv =>
        cases h
        rw [← moved_nil]
        exact .runClose hp (.of_advanceClose hadv)
  | panic p =>
    simp only [step, runPanic] at h
    split at h
    next c pc hp =>
      split at h
      · cases h
      next sr pc' hun =>
        cases h
        rw [← moved_nil]
        exact .panic hp (.of_unwind hun)
    · cases h
  | tick elapsed => cases h; exact .tick
  | cancel p => exact endCtx_cases (Or.inl rfl) h
  | expire p => exact endCtx_cases (Or.inr rfl) h
  | startWatch p =>
    simp only [step, runStartWatch] at h
    split at h
    next hp =>
      split at h
      next hg => cases h; exact .startWatch hp hg.1 hg.2
      · cases h
    · cases h
  | watchClose s =>
    simp only [step, runWatchClose] at h
    split at h
    next hw => cases h; exact .watchClose hw
    · cases h
  | answer s r =>
    simp only [step, runAnswer] at h
    split at h
    · cases h
    next howed =>
      split at h
      next hg => cases h; exact .answer howed hg.1 hg.2
      · cases h
  | cut s n => cases h; exact .cut

theorem run_exec {w w' : World} {p : ℕ} {inp : Input} {c : Call} {pc : Pc}
    (hp : w.procs p = some (.exec c pc)) (hs : w.step (.run p inp) = some w') :
    ∃ sr' c' pc' evs, advance (w.env p) w.pool inp c pc = some (sr', c', pc', evs) ∧
      w' = w.moved p sr' (.exec c' pc') evs := by
  simp only [World.step, World.runProc, hp] at hs
  split at hs
  · cases hs
  next hadv =>
    cases hs
    exact ⟨_, _, _, _, hadv, rfl⟩

theorem step_of_advance {w : World} {p : ℕ} {inp : Input} {c c' : Call} {pc pc' : Pc} {sr : Pool}
    {evs : List Event} (hp : w.procs p = some (.exec c pc))
    (hadv : advance (w.env p) w.pool inp c pc = some (sr, c', pc', evs)) :
    w.step (.run p inp) = some (w.moved p sr (.exec c' pc') evs) := by
  simp only [World.step, World.runProc, hp, hadv]
  rfl

/-- Processes are numbered as they start. -/
def Known (w : World) : Prop := ∀ p, w.next ≤ p → w.procs p = none

namespace Known

variable {w w' : World} {p : ℕ} {proc proc' : Proc}

theorem init (cfg : Config) : (World.init cfg).Known := fun _ _ => rfl

theorem lt_next (h : w.Known) (hp : w.procs p = some proc) : p < w.next := by
  by_contra hge
  rw [h p (not_lt.mp hge)] at hp
  exact nomatch hp

theorem update (h : w.Known) (hp : w.procs p = some proc)
    (hprocs : w'.procs = update w.procs p (some proc')) (hnext : w'.next = w.next) :
    w'.Known := by
  intro q hq
  have hlt := h.lt_next hp
  rw [hnext] at hq
  rw [hprocs, update_of_ne (by omega)]
  exact h q hq

theorem spawned (h : w.Known) : (w.spawn proc).Known := by
  intro q hq
  exact (update_of_ne (Nat.ne_of_gt hq) _ _).trans (h q (Nat.le_of_succ_le hq))

theorem step {a : Action} (h : w.Known) (hs : w.step a = some w') : w'.Known := by
  cases World.step_cases hs with
  | exec | close => exact h.spawned
  | run hp | runClose hp | panic hp => exact h.update hp rfl rfl
  | endCtx _ hp => exact h.update hp rfl rfl
  | tick | startWatch | watchClose | answer | cut => exact h

end Known

end World

/-! ## New clients -/

theorem new_ok {cfg : Config} {w : World} (h : new cfg = .ok w) :
    w = World.init w.cfg ∧ 0 < w.cfg.poolSize := by
  unfold new Config.applyDefaults at h
  dsimp only at h
  split at h
  · exact nomatch h
  · injection h with h
    subst h
    refine ⟨rfl, ?_⟩
    show 0 < orDefault cfg.poolSize defaultPoolSize
    unfold orDefault
    split
    · decide
    · omega

theorem Config.liveCap_eq {cfg : Config} (h : 0 < cfg.poolSize) :
    (cfg.liveCap : ℤ) = cfg.poolSize := by
  unfold Config.liveCap
  rw [if_pos h]
  omega

/-! ## Runs of a client with one socket -/

def oneSocket : Config := ⟨[], [], 1, 1, 0, 0, 0, 0, 0, 0, 0⟩

def steps (p : ℕ) (inps : List Input) : List Action := inps.map (.run p)

def quiet (p n : ℕ) : List Action := steps p (List.replicate n .none)

/-- A new command finds nothing to reuse and is in the TCP dial. -/
def dialFor (p : ℕ) : List Action := .exec [] ⟨none, none⟩ :: quiet p 8

/-- `do` has written the command. -/
def sendFor (p : ℕ) : List Action := quiet p 2 ++ steps p [.ok, .ok]

/-- Socket `s` answers the command of `p` with `+OK`. -/
def answerOk (p s : ℕ) : List Action := [.answer s (.simple (ascii "OK")), .run p (.arrived 5)]

/-- A command dials socket `s`, is answered on it, parks it and returns. -/
def dialAndPark (p s : ℕ) : List Action :=
  dialFor p ++ [Action.run p .connected] ++ sendFor p ++ answerOk p s ++ quiet p 6

/-- A command takes the parked socket, loses it and is about to retry. -/
def loseParked (p : ℕ) : List Action :=
  .exec [] ⟨none, none⟩ :: quiet p 7 ++ sendFor p ++ [Action.run p (.readFailed .other)] ++
    quiet p 6

/-- The retry waits, skips the unused list and dials. -/
def dialPastIdle (p : ℕ) : List Action := quiet p 1 ++ [Action.run p .timer] ++ quiet p 5

end MiddlewareUtils.SimpleRedis
