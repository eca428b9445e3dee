import MiddlewareUtils.Proofs.CommandAttempts
import MiddlewareUtils.Proofs.RespGrammar
import MiddlewareUtils.SimpleRedis.Notes

/-!
# Whose deadline it was

A command can be stopped by its caller, by a deadline of its caller or by
the budget the client gives every command, and its error says which. The
context is looked at in a dozen places, by `Err`, by the wall clock and
through the deadline of the socket, and each place makes an error of its own
of what it sees. What keeps them in line is that they all make the context's
own error of it, that nothing is retried after one, and that `exec` maps it
once, on the way out.

The watcher notes what the caller's deadline was, what the client's budget
came to, and what the command learned of its context in each step
(`learns`), wherever that step is. `Told` says what a step makes of it: a
command that learns something carries exactly that error from there to its
return. `StoryInv` follows the error through the attempt, and the last thing
learned is what the command returns.

The same notes count the calls of `borrowSocket`. A command leaves the retry
loop without one only if it learned something, or if the loop never ran:
`MaxRetries` below -1 passes `applyDefaults` and `retryLimits` as it is, and
then no command is ever tried.
-/

namespace MiddlewareUtils.SimpleRedis

open Lib

/-! ## What a command learns of its context -/

def IoError.learns (ctx : Ctx) (now : ℤ) (e : IoError) : Option CtxErr :=
  match contextStop ctx now with
  | some stop => some stop
  | none => if ctx.deadline.isSome ∧ e = .deadline then some .deadlineExceeded else none

def Stage.learns (env : Env) (sr : Pool) (inp : Input) (ctx : Ctx) (s : ℕ) :
    Stage → Option CtxErr
  | enter => contextStop ctx env.now
  | budget => if commandBudgetLeft env ctx ≤ 0 then contextStop ctx env.now else none
  | write =>
    match inp with
    | .writeFailed _ e => e.learns ctx env.now
    | _ => none
  | read =>
    match readReply (sr.sockets s).buffer with
    | .more =>
      match inp with
      | .readFailed e => e.learns ctx env.now
      | _ => none
    | _ => contextStop ctx env.now
  | arm | leave _ _ => none

def learns (env : Env) (sr : Pool) (inp : Input) (c : Call) : Pc → Option CtxErr
  | .start => c.ctx.err
  | .attempt =>
    if retryLimit env.cfg.maxRetries < c.attempt then none else contextStop c.ctx env.now
  | .backoff | .waitTurn =>
    match inp with
    | .timer => contextStop c.ctx env.now
    | .ctxDone => c.ctx.err
    | _ => none
  | .borrowCtx | .dial | .stopped _ _ _ => contextStop c.ctx env.now
  | .dialing =>
    match inp with
    | .refused => contextStop c.ctx env.now
    | _ => none
  | .io s _ stage => stage.learns env sr inp c.ctx s
  | _ => none

/-! ## The error a command carries -/

def Decoded.err : Decoded → Option Err
  | .ok _ => none
  | .error e => some e

def Ran.err : Ran → Option Err
  | returned reply => reply.err
  | panicked => none

def Pc.err : Pc → Option Err
  | io _ _ (.leave reply _) => reply.err
  | hangUp _ e => some e
  | refund (.err e _) => some e
  | borrowFailed (.err e _) => some e
  | stopped _ reply _ => reply.err
  | release _ r _ | closing _ r | freeTurn r | ran r => r.err
  | _ => none

def Err.plain : Err → Prop
  | context _ | timeout => False
  | _ => True

variable {env : Env} {sr sr' : Pool} {inp : Input} {c c' : Call} {pc pc' : Pc}
  {evs : List Event}

theorem afterDo_err (cfg : Config) (s : ℕ) (reply : Decoded) (reusable : Bool) (verb : Verb) :
    (afterDo cfg s reply reusable verb).err = reply.err := by
  cases verb with
  | command => rfl
  | auth | select => cases reply <;> rfl

theorem ioOrContext_of_learns {ctx : Ctx} {now : ℤ} {e : IoError} {stop : CtxErr}
    (h : e.learns ctx now = some stop) : ioOrContext ctx now e = .context stop := by
  cases hstop : contextStop ctx now with
  | some stopped =>
    rw [IoError.learns, hstop] at h
    injection h with h
    rw [ioOrContext, hstop, h]
  | none =>
    rw [IoError.learns, hstop] at h
    rw [ioOrContext, hstop]
    dsimp only at h ⊢
    split at h
    next hdead =>
      injection h with h
      rw [if_pos hdead, h]
    · cases h

theorem ioOrContext_plain {ctx : Ctx} {now : ℤ} {e : IoError} (h : e.learns ctx now = none)
    (hd : ctx.deadline.isSome) : (ioOrContext ctx now e).plain := by
  cases hstop : contextStop ctx now with
  | some stopped =>
    rw [IoError.learns, hstop] at h
    cases h
  | none =>
    rw [IoError.learns, hstop] at h
    rw [ioOrContext, hstop]
    dsimp only at h ⊢
    split at h
    · cases h
    next hdead =>
      rw [if_neg hdead]
      cases e with
      | deadline => exact absurd ⟨hd, rfl⟩ hdead
      | other => trivial

theorem replyError_plain (message : Bytes) : (replyError message).plain := by
  unfold replyError
  split <;> trivial

theorem readReply_plain {bs : Bytes} :
    (∀ e, readReply bs = .fail e → e.plain) ∧
      ∀ d rest, readReply bs = .done d rest → ∀ e ∈ d.err, e.plain := by
  refine ⟨fun e h => ?_, fun d rest h e he => ?_⟩
  · rcases readReply_refuses bs e h with rfl | rfl <;> trivial
  · cases d with
    | ok values => cases he
    | error e' =>
      cases he
      obtain ⟨text, rfl⟩ := readReply_error h
      exact replyError_plain text

/-! ## What a step makes of it -/

/-- A command carries the context's error from where it learns of it to its
return, and it carries no other error about time. -/
inductive Told (limit : ℤ) (p : ℕ) (c : Call) (pc : Pc) : Option CtxErr → Pc → List Event → Prop
  | stopped {e : CtxErr} {pc' : Pc} {evs : List Event} (herr : pc'.err = some (.context e))
      (hevs : ∀ reply, .returned p reply ∉ evs) : Told limit p c pc (some e) pc' evs
  | returns {e} : Told limit p c pc (some e) .done
      [.returned p (.error (libraryTimeout c.libraryOwnsDeadline (.context e)))]
  | on {pc' : Pc} {evs : List Event} (herr : ∀ e ∈ pc'.err, e.plain ∨ pc.err = some e)
      (hkeep : ∀ e, pc.err = some (.context e) → pc'.err = some (.context e))
      (hevs : ∀ reply, .returned p reply ∉ evs) : Told limit p c pc none pc' evs
  | gaveUp {e} (herr : pc.err = some e ∨ pc.err = none ∧ c.last = some e) :
      Told limit p c pc none .done
        [.returned p (.error (libraryTimeout c.libraryOwnsDeadline e))]
  | succeeds {values} (herr : pc.err = none) :
      Told limit p c pc none .done [.returned p (.ok values)]
  | neverTried (herr : pc.err = none) (hlast : c.last = none) (hlimit : limit < c.attempt) :
      Told limit p c pc none .done [.returned p (.error .timeout)]

section

variable {limit : ℤ} {p : ℕ}

theorem Told.quiet (herr : pc.err = none) (herr' : ∀ e ∈ pc'.err, e.plain) :
    Told limit p c pc none pc' [] :=
  .on (fun e he => Or.inl (herr' e he)) (fun e he => by rw [herr] at he; cases he) nofun

theorem Told.keeps (herr : pc'.err = pc.err) (hevs : ∀ reply, .returned p reply ∉ evs) :
    Told limit p c pc none pc' evs :=
  .on (fun _ he => Or.inr (herr ▸ he)) (fun _ he => herr.trans he) hevs

theorem Told.same (herr : pc'.err = pc.err) : Told limit p c pc none pc' [] :=
  .keeps herr fun _ => List.not_mem_nil

theorem Told.stops {e : CtxErr} (herr : pc'.err = some (.context e)) :
    Told limit p c pc (some e) pc' [] :=
  .stopped herr fun _ => List.not_mem_nil

theorem Told.again {e : Err} {hs : Bool} (herr : pc.err = some e) (herr' : pc'.err = none)
    (hretry : shouldRetry e hs = true) : Told limit p c pc none pc' [] := by
  refine .on (fun e he => ?_) (fun e he => ?_) fun _ => List.not_mem_nil
  · rw [herr'] at he
    cases he
  · cases herr.symm.trans he
    cases hretry

theorem contextStop_of_spent {ctx : Ctx} (hd : ctx.deadline.isSome)
    (hb : commandBudgetLeft env ctx ≤ 0) : contextStop ctx env.now ≠ none := by
  obtain ⟨d, hd⟩ := Option.isSome_iff_exists.mp hd
  unfold commandBudgetLeft at hb
  unfold contextStop
  rw [hd] at hb ⊢
  cases ctx.err with
  | some e => exact nofun
  | none =>
    dsimp only at hb ⊢
    rw [if_pos (by omega)]
    exact nofun

theorem afterRead_told {ctx : Ctx} {now : ℤ} {reply : Decoded} {reusable : Bool} {s : ℕ}
    {verb : Verb} (hreply : ∀ e ∈ reply.err, e.plain) :
    Told limit p c (.io s verb .read) (contextStop ctx now)
      (.io s verb (afterRead ctx now reply reusable)) [] := by
  unfold afterRead
  cases contextStop ctx now with
  | some e => exact .stops rfl
  | none => exact .quiet rfl hreply

theorem ioFailed_told {ctx : Ctx} {now : ℤ} {e : IoError} {s : ℕ} {verb : Verb}
    (hd : ctx.deadline.isSome) (herr : pc.err = none) (hevs : ∀ reply, .returned p reply ∉ evs) :
    Told limit p c pc (e.learns ctx now)
      (.io s verb (.leave (.error (ioOrContext ctx now e)) false)) evs := by
  cases hl : e.learns ctx now with
  | some stop =>
    rw [ioOrContext_of_learns hl]
    exact .stopped rfl hevs
  | none =>
    refine .on (fun e' he' => Or.inl ?_) (fun e' he' => by rw [herr] at he'; cases he') hevs
    cases he'
    exact ioOrContext_plain hl hd

theorem Told.of_doStep {ctx : Ctx} {args : List Bytes} {tag : Tag} {s : ℕ} {verb : Verb}
    {stage stage' : Stage} (hd : ctx.deadline.isSome)
    (h : doStep env sr inp ctx args tag s stage = some (sr', stage', evs)) :
    Told limit p c (.io s verb stage) (stage.learns env sr inp ctx s) (.io s verb stage') evs := by
  have hwritten : ∀ reply, .returned p reply ∉ [Event.written tag args] :=
    fun _ hmem => by cases List.mem_singleton.mp hmem
  cases stage with
  | enter =>
    simp only [doStep] at h
    rw [Stage.learns]
    split at h
    next he => cases h; rw [he]; exact .stops rfl
    next he => cases h; rw [he]; exact .same rfl
  | budget =>
    simp only [doStep] at h
    rw [Stage.learns]
    split at h
    next hb =>
      rw [if_pos hb]
      split at h
      next he => cases h; rw [he]; exact .stops rfl
      next he => exact absurd he (contextStop_of_spent hd hb)
    next hb => cases h; rw [if_neg hb]; exact .same rfl
  | arm =>
    simp only [doStep] at h
    split at h
    · cases h
      exact .quiet rfl fun e he => by cases he; trivial
    · split at h
      · cases h
        exact .same rfl
      · cases h
        exact .quiet rfl fun e he => by cases he; trivial
    · cases h
  | write =>
    simp only [doStep] at h
    split at h
    · cases h
      exact .keeps rfl hwritten
    · cases h
      exact ioFailed_told hd rfl hwritten
    · cases h
  | read =>
    simp only [doStep] at h
    unfold Stage.learns
    split at h
    next hmore =>
      simp only [hmore]
      split at h
      · split at h
        · cases h
          exact .same rfl
        · cases h
      · cases h
        exact ioFailed_told hd rfl fun _ => List.not_mem_nil
      · cases h
    next e hfail =>
      cases h
      simp only [hfail]
      refine afterRead_told fun e' he' => ?_
      cases he'
      exact readReply_plain.1 e hfail
    next reply rest hdone =>
      cases h
      simp only [hdone]
      exact afterRead_told (readReply_plain.2 reply rest hdone)
  | leave reply reusable => cases h

theorem Told.of_advance (hd : pc ≠ .start → c.ctx.deadline.isSome)
    (hstart : pc = .start → c.libraryOwnsDeadline = false)
    (h : advance env sr inp c pc = some (sr', c', pc', evs)) :
    Told (retryLimit env.cfg.maxRetries) env.p c pc (learns env sr inp c pc) pc' evs := by
  cases pc with
  | start =>
    simp only [advance] at h
    rw [learns]
    split at h
    next e he =>
      cases h
      rw [he]
      have hret := @Told.returns (retryLimit env.cfg.maxRetries) env.p c .start e
      rw [hstart rfl, libraryTimeout, if_neg fun h => Bool.false_ne_true h.1] at hret
      exact hret
    next he => cases h; rw [he]; exact .same rfl
  | attempt =>
    simp only [advance] at h
    rw [learns]
    split at h
    next hr =>
      rw [if_pos hr]
      split at h
      next hl => cases h; exact .gaveUp (Or.inr ⟨rfl, hl⟩)
      next hl => cases h; exact .neverTried rfl hl hr
    next hr =>
      rw [if_neg hr]
      split at h
      next he => cases h; rw [he]; exact .returns
      next he =>
        cases h
        rw [he]
        exact .quiet rfl fun e he => by split at he <;> cases he
  | backoff =>
    simp only [advance] at h
    simp only [learns]
    split at h
    · split at h
      next he => cases h; rw [he]; exact .returns
      next he => cases h; rw [he]; exact .same rfl
    · split at h
      next he => cases h; rw [he]; exact .returns
      · cases h
    · cases h
  | borrow =>
    simp only [advance] at h
    split at h
    · cases h
      exact .quiet rfl fun e he => by cases he; trivial
    · cases h
      exact .same rfl
  | borrowCtx =>
    simp only [advance] at h
    rw [learns]
    split at h
    next he => cases h; rw [he]; exact .stops rfl
    next he => cases h; rw [he]; exact .same rfl
  | takeTurn =>
    simp only [advance] at h
    split at h <;> (cases h; exact .same rfl)
  | waitTurn =>
    simp only [advance] at h
    simp only [learns]
    split at h
    · split at h
      · cases h
        exact .same rfl
      · cases h
    · split at h
      next he => cases h; rw [he]; exact .stops rfl
      · cases h
    · split at h
      next he => cases h; rw [he]; exact .stops rfl
      next he => cases h; rw [he]; exact .quiet rfl fun e he => by cases he; trivial
    · cases h
  | takeIdle =>
    cases Move.of_advance h with
    | shut => exact .quiet rfl fun e he => by cases he; trivial
    | skipIdle | taken => exact .same rfl
  | sweep stale reused =>
    cases Move.of_advance h with
    | swept | reuse | miss => exact .same rfl
  | dial =>
    simp only [advance] at h
    rw [learns]
    split at h
    next he => cases h; rw [he]; exact .stops rfl
    next he => cases h; rw [he]; exact .same rfl
  | dialing =>
    simp only [advance] at h
    simp only [learns]
    split at h
    · cases h
      exact .same rfl
    · split at h
      next he => cases h; rw [he]; exact .stops rfl
      next he => cases h; rw [he]; exact .quiet rfl fun e he => by cases he; trivial
    · cases h
  | io s verb stage =>
    simp only [advance] at h
    split at h
    · cases h
      exact .same (afterDo_err ..)
    · split at h
      next hdo => cases h; exact .of_doStep (hd fun heq => by cases heq) hdo
      · cases h
  | hangUp s e => cases h; exact .same rfl
  | refund f => cases h; exact .same (by cases f <;> rfl)
  | borrowFailed f =>
    cases Move.of_advance h with
    | borrowGaveUp => exact .gaveUp (Or.inl rfl)
    | borrowAgain _ hretry => exact .again rfl rfl hretry
    | borrowPanicked => exact .keeps rfl fun _ hmem => by cases List.mem_singleton.mp hmem
  | stopped s reply reusable =>
    simp only [advance] at h
    rw [learns]
    split at h
    next he => cases h; rw [he]; exact .stops rfl
    next he => cases h; rw [he]; exact .same rfl
  | release s ran reusable =>
    cases Move.of_advance h with
    | park | noRoom | dirty => exact .same rfl
  | closing s ran => cases h; exact .same rfl
  | freeTurn ran => cases h; exact .same rfl
  | ran r =>
    cases Move.of_advance h with
    | succeed => exact .succeeds rfl
    | runAgain hretry => exact .again rfl rfl hretry
    | runGaveUp => exact .gaveUp (Or.inl rfl)
    | runPanicked => exact .keeps rfl fun _ hmem => by cases List.mem_singleton.mp hmem
  | done => cases h

end

/-! ## The notes -/

/-- What is noted of a command's deadlines and attempts. -/
structure Story where
  /-- The deadline of the caller's context. -/
  deadline : Option ℤ
  /-- The deadline the command's budget gives it. -/
  library : Option ℤ
  /-- What the context said when it last stopped the command. -/
  stop : Option CtxErr
  /-- The caller cancelled, before the command started or before any deadline
  had passed. -/
  cancelled : Bool
  /-- How often `borrowSocket` was called. -/
  borrows : ℕ
  deriving DecidableEq, Repr

def storyNotes : Notes Story where
  start := fun _ ctx => ⟨ctx.deadline, none, none, decide (ctx.err = some .canceled), 0⟩
  step := fun env sr inp c pc g => { g with
    library := match pc with
      | .start => some (env.now + env.cfg.commandTimeoutOf)
      | _ => g.library
    stop := (learns env sr inp c pc).or g.stop
    borrows := match pc with
      | .borrow => g.borrows + 1
      | _ => g.borrows }
  -- A command that panics is not stopped by its context.
  panic := fun _ g => { g with stop := none }
  cancel := fun now c g =>
    { g with cancelled := decide ((∀ d ∈ c.ctx.deadline, now < d) ∧ g.stop = none) }

/-! ## Attempts -/

theorem contextStop_eq_none {ctx : Ctx} {now : ℤ} :
    contextStop ctx now = none ↔ ctx.err = none ∧ ∀ d ∈ ctx.deadline, now < d := by
  obtain ⟨err, deadline⟩ := ctx
  cases err with
  | some e => simp [contextStop]
  | none => cases deadline <;> simp [contextStop]

theorem contextStop_mono {ctx : Ctx} {now now' : ℤ} (hle : now ≤ now')
    (h : contextStop ctx now ≠ none) : contextStop ctx now' ≠ none := by
  intro hnone
  obtain ⟨herr, hd⟩ := contextStop_eq_none.mp hnone
  exact h (contextStop_eq_none.mpr ⟨herr, fun d hmem => lt_of_le_of_lt hle (hd d hmem)⟩)

theorem contextStop_of_err {ctx : Ctx} {now : ℤ} {e : CtxErr} (h : ctx.err = some e) :
    contextStop ctx now = some e := by
  unfold contextStop
  rw [h]

structure TriedInv (limit : ℤ) (w : World) (g : Story) (c : Call) (pc : Pc) : Prop where
  start : pc = .start → c.attempt = 0 ∧ c.last = none
  fresh : c.last = none → c.attempt = 0
  untried : g.borrows = 0 → pc = .start ∨ pc = .attempt ∧ c.attempt = 0 ∨ pc = .borrow ∨
    pc = .done ∧ (contextStop c.ctx w.now ≠ none ∨ limit < 0)

namespace TriedInv

variable {limit : ℤ} {w w' : World} {p : ℕ} {g : Story}

theorem own (h : TriedInv limit w g c pc) (hlimit : retryLimit w.cfg.maxRetries = limit)
    (hadv : advance (w.env p) w.pool inp c pc = some (sr', c', pc', evs)) :
    TriedInv limit (w.moved p sr' (.exec c' pc') evs)
      (storyNotes.step (w.env p) w.pool inp c pc g) c' pc' := by
  have hm := Move.of_advance hadv
  refine ⟨fun hpc' => absurd hpc' hm.not_start, fun hlast => ?_, fun hb => ?_⟩
  · cases hm with
    | bind =>
      obtain ⟨hl, ha, _⟩ := bindCommandDeadline_keeps w.cfg w.now c
      exact ha.trans (h.fresh (hl.symm.trans hlast))
    | borrowAgain | runAgain => cases hlast
    | @runGaveUp e =>
      rw [(c.noteDead_keeps e).1]
      refine h.fresh ?_
      unfold Call.noteDead at hlast
      split at hlast <;> exact hlast
    | _ => exact h.fresh hlast
  · subst hlimit
    have hnow : (w.moved p sr' (.exec c' pc') evs).now = w.now := rfl
    rw [hnow]
    have hold : g.borrows = 0 := by
      cases pc with
      | borrow => cases hb
      | _ => exact hb
    rcases h.untried hold with rfl | ⟨rfl, hzero⟩ | rfl | ⟨rfl, _⟩
    · cases hm with
      | deadOnArrival he =>
        refine .inr (Or.inr (Or.inr ⟨rfl, Or.inl ?_⟩))
        rw [contextStop_of_err he]
        exact nofun
      | bind =>
        refine .inr (Or.inl ⟨rfl, ?_⟩)
        rw [(bindCommandDeadline_keeps ..).2.1]
        exact (h.start rfl).1
    · cases hm with
      | exhausted hr | neverTried hr =>
        refine .inr (Or.inr (Or.inr ⟨rfl, Or.inr ?_⟩))
        rw [hzero] at hr
        exact hr
      | attemptStop _ he =>
        refine .inr (Or.inr (Or.inr ⟨rfl, Or.inl ?_⟩))
        rw [show contextStop c.ctx w.now = some _ from he]
        exact nofun
      | retry _ _ hn => omega
      | first => exact .inr (Or.inr (Or.inl rfl))
    · cases hb
    · cases hm

theorem unwound (h : TriedInv limit w g c pc) (hm : Unwind w.pool pc sr' pc') :
    TriedInv limit (w.moved p sr' (.exec c pc') []) { g with stop := none } c pc' := by
  refine ⟨fun hpc' => ?_, h.fresh, fun hb => ?_⟩
  · cases hm <;> cases hpc'
  · rcases h.untried hb with rfl | ⟨rfl, _⟩ | rfl | ⟨rfl, _⟩ <;> cases hm

theorem ended (h : TriedInv limit w g c pc) {e : CtxErr} {b : Bool} :
    TriedInv limit (w.ended p c pc e) { g with cancelled := b }
      { c with ctx := { c.ctx with err := some e } } pc := by
  refine ⟨h.start, h.fresh, fun hb => ?_⟩
  rcases h.untried hb with hpc | hpc | hpc | ⟨hpc, _⟩
  · exact .inl hpc
  · exact .inr (Or.inl hpc)
  · exact .inr (Or.inr (Or.inl hpc))
  · refine .inr (Or.inr (Or.inr ⟨hpc, Or.inl ?_⟩))
    rw [contextStop_of_err rfl]
    exact nofun

theorem elsewhere (h : TriedInv limit w g c pc) (hnow : w.now ≤ w'.now) :
    TriedInv limit w' g c pc := by
  refine ⟨h.start, h.fresh, fun hb => ?_⟩
  rcases h.untried hb with hpc | hpc | hpc | ⟨hpc, hstop⟩
  · exact .inl hpc
  · exact .inr (Or.inl hpc)
  · exact .inr (Or.inr (Or.inl hpc))
  · exact .inr (Or.inr (Or.inr ⟨hpc, hstop.imp_left (contextStop_mono hnow)⟩))

theorem begin (w : World) (args : List Bytes) (ctx : Ctx) (now : ℤ) :
    TriedInv limit w (storyNotes.start now ctx) (.begin args ctx) .start :=
  ⟨fun _ => ⟨rfl, rfl⟩, fun _ => rfl, fun _ => Or.inl rfl⟩

theorem keeper (limit : ℤ) : Keeper storyNotes (fun _ _ => True)
    (fun w => retryLimit w.cfg.maxRetries = limit) fun w _ g c pc => TriedInv limit w g c pc where
  client := fun h _ hs => by rw [World.step_cfg hs]; exact h
  start := fun _ _ _ => .begin _ _ _ _
  own := fun hlimit _ h hadv => h.own hlimit hadv
  unwound := fun _ _ _ h hm => h.unwound hm
  cancelled := fun _ _ h => h.ended
  expired := fun _ _ _ _ h => h.ended
  elsewhere := fun _ _ _ helse h => h.elsewhere helse.now

end TriedInv

theorem retryLimit_nonneg {maxRetries : ℤ} (h : -1 ≤ maxRetries) : 0 ≤ retryLimit maxRetries := by
  unfold retryLimit
  split
  · exact le_refl _
  · split <;> omega

theorem Config.commandTimeoutOf_pos (cfg : Config) : 0 < cfg.commandTimeoutOf := by
  unfold Config.commandTimeoutOf
  split
  next h => exact h
  · decide

theorem new_maxRetries {cfg : Config} {w : World} (h : new cfg = .ok w) :
    w.cfg.maxRetries = if cfg.maxRetries = 0 then defaultMaxRetries else cfg.maxRetries := by
  unfold new Config.applyDefaults at h
  dsimp only at h
  split at h
  · exact nomatch h
  · injection h with h
    subst h
    rfl

theorem new_retryLimit {cfg : Config} {w : World} (h : new cfg = .ok w) :
    0 ≤ retryLimit w.cfg.maxRetries ↔ -1 ≤ cfg.maxRetries := by
  rw [new_maxRetries h]
  split
  next hzero =>
    rw [hzero]
    decide
  · refine ⟨fun hlimit => ?_, retryLimit_nonneg⟩
    by_contra hlt
    rw [retryLimit, if_neg (by omega), if_neg (by omega)] at hlimit
    omega

/-- Below -1 the retry loop never runs: a command that nothing stops has timed
out at once. -/
theorem untried_of_neg {cfg : Config} (hneg : retryLimit cfg.maxRetries < 0) :
    ∃ s c, run (Noted.step storyNotes) (.init storyNotes (.init cfg))
        (.exec [ascii "GET", ascii "key"] ⟨none, none⟩ :: quiet 0 2) = some s ∧
      s.world.procs 0 = some (.exec c .done) ∧ contextStop c.ctx s.world.now = none ∧
      .returned 0 (.error .timeout) ∈ s.world.log ∧ (s.notes 0).borrows = 0 := by
  refine ⟨_, _, run_of_step rfl (run_of_step rfl (run_of_step
    (Noted.step_of_advance rfl (if_pos hneg)) rfl)), rfl, ?_, List.mem_singleton.mpr rfl, rfl⟩
  refine contextStop_eq_none.mpr ⟨rfl, fun d hd => ?_⟩
  obtain rfl := Option.some.inj hd
  show (0 : ℤ) < 0 + cfg.commandTimeoutOf
  have := cfg.commandTimeoutOf_pos
  omega

/-- In every run of a client, a command whose context is not done asks for a
socket before it returns, if and only if `MaxRetries` is at least -1. -/
theorem first_attempt {cfg : Config} {w₀ : World} (hnew : new cfg = .ok w₀) :
    (∀ acts s, run (Noted.step storyNotes) (.init storyNotes w₀) acts = some s →
      ∀ p c, s.world.procs p = some (.exec c .done) → contextStop c.ctx s.world.now = none →
        0 < (s.notes p).borrows) ↔ -1 ≤ cfg.maxRetries := by
  obtain ⟨hinit, _⟩ := new_ok hnew
  rw [← new_retryLimit hnew]
  constructor
  · intro htried
    by_contra hneg
    obtain ⟨s, c, hrun, hp, hlive, _, hzero⟩ := untried_of_neg (not_le.mp hneg)
    rw [← hinit] at hrun
    have := htried _ s hrun 0 c hp hlive
    omega
  · intro hlimit acts s hrun p c hp hlive
    rw [hinit] at hrun
    have hinv := (TriedInv.keeper _).run rfl (along_of_forall (fun _ _ => trivial) _) hrun
    by_contra hzero
    rcases (hinv.commands p c .done hp).untried (Nat.eq_zero_of_not_pos hzero) with
      hpc | ⟨hpc, _⟩ | hpc | ⟨_, hstop⟩
    · cases hpc
    · cases hpc
    · cases hpc
    · rcases hstop with hstop | hneg
      · exact hstop hlive
      · exact absurd hneg (not_lt.mpr hlimit)

/-- One command that dials, is answered and returns. -/
theorem first_attempt_dialAndPark : ∃ w₀ s c, new oneSocket = .ok w₀ ∧
    run (Noted.step storyNotes) (.init storyNotes w₀) (dialAndPark 0 0) = some s ∧
    s.world.procs 0 = some (.exec c .done) ∧ 0 < (s.notes 0).borrows :=
  ⟨_, _, _, rfl, rfl, rfl, (@first_attempt oneSocket _ rfl).mpr (by decide) (dialAndPark 0 0) _
    rfl 0 _ rfl (by decide +kernel)⟩

/-- No attempt is allowed. -/
def noAttempt : Config := { oneSocket with maxRetries := -2 }

/-- The client is accepted and open, and the command has timed out at once. -/
theorem noAttempt_times_out : ∃ w₀ s c, new noAttempt = .ok w₀ ∧
    run (Noted.step storyNotes) (.init storyNotes w₀)
      (.exec [ascii "GET", ascii "key"] ⟨none, none⟩ :: quiet 0 2) = some s ∧
    s.world.procs 0 = some (.exec c .done) ∧ contextStop c.ctx s.world.now = none ∧
    s.world.pool.closed = false ∧ .returned 0 (.error .timeout) ∈ s.world.log ∧
    (s.notes 0).borrows = 0 :=
  ⟨_, _, _, rfl, rfl, rfl, by decide +kernel, rfl, List.mem_singleton.mpr rfl, rfl⟩

/-! ## Deadlines -/

/-- A context is not past its deadline before the deadline. -/
def HonestContext (w : World) : Action → Prop
  | .exec _ ctx => ctx.err = some .deadlineExceeded → ∃ d ∈ ctx.deadline, d ≤ w.now
  | _ => True

instance (w : World) : (a : Action) → Decidable (HonestContext w a)
  | .exec _ ctx =>
    inferInstanceAs (Decidable (ctx.err = some .deadlineExceeded → ∃ d ∈ ctx.deadline, d ≤ w.now))
  | .close | .run _ _ | .panic _ | .tick _ | .cancel _ | .expire _ | .startWatch _
  | .watchClose _ | .answer _ _ | .cut _ _ => isTrue trivial

/-- Whether the budget or the caller's deadline is the nearer one. A command
that arrives cancelled has not compared them. -/
def Owner (g : Story) (c : Call) (pc : Pc) (library : ℤ) : Prop :=
  c.libraryOwnsDeadline = true ∧ (∀ d ∈ g.deadline, library < d) ∨
    c.libraryOwnsDeadline = false ∧
      ((∃ d ∈ g.deadline, d ≤ library) ∨ pc = .done ∧ g.stop = some .canceled)

def Verdict (limit : ℤ) (stop : Option CtxErr) (owns : Bool) (reply : Decoded) : Prop :=
  match stop with
  | some e => reply = .error (libraryTimeout owns (.context e))
  | none => (∀ e ∈ reply.err, e.plain) ∨ limit < 0

structure StoryInv (limit : ℤ) (w : World) (p : ℕ) (g : Story) (c : Call) (pc : Pc) : Prop where
  tried : TriedInv limit w g c pc
  honest : c.ctx.err = some .deadlineExceeded → ∃ d ∈ c.ctx.deadline, d ≤ w.now
  start : pc = .start →
    c.ctx.deadline = g.deadline ∧ c.libraryOwnsDeadline = false ∧ g.stop = none
  bound : pc ≠ .start → pc ≠ .done → c.ctx.deadline.isSome
  owner : pc ≠ .start → ∃ library, g.library = some library ∧ Owner g c pc library
  carried : ∀ e, g.stop = some e → pc ≠ .done → pc.err = some (.context e)
  plain : g.stop = none → ∀ e ∈ pc.err, e.plain
  last : ∀ e ∈ c.last, e.plain
  answer : ∀ reply, .returned p reply ∈ w.log →
    pc = .done ∧ Verdict limit g.stop c.libraryOwnsDeadline reply
  cancelled : g.cancelled = true → c.ctx.err = some .canceled ∧ ∀ e ∈ g.stop, e = .canceled

theorem learns_of_err {e e' : CtxErr} (he : c.ctx.err = some e)
    (h : learns env sr inp c pc = some e') : e' = e := by
  have hstop : ∀ {e₁}, contextStop c.ctx env.now = some e₁ → e₁ = e := by
    intro e₁ h₁
    rw [contextStop_of_err he] at h₁
    exact (Option.some.inj h₁).symm
  have hio : ∀ {x : IoError} {e₁}, x.learns c.ctx env.now = some e₁ → e₁ = e := by
    intro x e₁ h₁
    rw [IoError.learns, contextStop_of_err he] at h₁
    exact (Option.some.inj h₁).symm
  have herr : ∀ {e₁}, c.ctx.err = some e₁ → e₁ = e := fun h₁ => Option.some.inj (h₁.symm.trans he)
  cases pc with
  | start => exact herr h
  | attempt =>
    simp only [learns] at h
    split at h
    · cases h
    · exact hstop h
  | backoff | waitTurn =>
    simp only [learns] at h
    split at h
    · exact hstop h
    · exact herr h
    · cases h
  | borrowCtx | dial | stopped => exact hstop h
  | dialing =>
    simp only [learns] at h
    split at h
    · exact hstop h
    · cases h
  | io s verb stage =>
    cases stage with
    | enter => exact hstop h
    | budget =>
      simp only [learns, Stage.learns] at h
      split at h
      · exact hstop h
      · cases h
    | write =>
      simp only [learns, Stage.learns] at h
      split at h
      · exact hio h
      · cases h
    | read =>
      simp only [learns, Stage.learns] at h
      split at h
      · split at h
        · exact hio h
        · cases h
      · exact hstop h
    | arm | leave => cases h
  | _ => cases h

theorem Move.ctx_same (hm : Move env sr c pc sr' c' pc' evs) (hpc : pc ≠ .start) :
    c'.ctx = c.ctx ∧ c'.libraryOwnsDeadline = c.libraryOwnsDeadline := by
  cases hm with
  | deadOnArrival | bind => exact absurd rfl hpc
  | runAgain | runGaveUp =>
    unfold Call.noteDead
    split <;> exact ⟨rfl, rfl⟩
  | _ => exact ⟨rfl, rfl⟩

theorem bindCommandDeadline_spec (cfg : Config) (now : ℤ) (c : Call) :
    (bindCommandDeadline cfg now c).ctx.err = c.ctx.err ∧
      (bindCommandDeadline cfg now c).ctx.deadline.isSome ∧
      ((bindCommandDeadline cfg now c).libraryOwnsDeadline = true ∧
          (∀ d ∈ c.ctx.deadline, now + cfg.commandTimeoutOf < d) ∨
        (bindCommandDeadline cfg now c).libraryOwnsDeadline = c.libraryOwnsDeadline ∧
          ∃ d ∈ c.ctx.deadline, d ≤ now + cfg.commandTimeoutOf) := by
  unfold bindCommandDeadline
  dsimp only
  split
  next parent hd =>
    split
    next hle => exact ⟨rfl, by rw [hd]; rfl, Or.inr ⟨rfl, parent, hd, hle⟩⟩
    next hlt =>
      refine ⟨rfl, rfl, Or.inl ⟨rfl, fun d hmem => ?_⟩⟩
      obtain rfl := Option.some.inj (hd.symm.trans hmem)
      exact not_le.mp hlt
  next hd =>
    refine ⟨rfl, rfl, Or.inl ⟨rfl, fun d hmem => ?_⟩⟩
    rw [hd] at hmem
    cases hmem

theorem plain_of_shouldRetry {e : Err} {hs : Bool} (h : shouldRetry e hs = true) : e.plain := by
  cases e with
  | context | timeout => cases h
  | _ => trivial

theorem Move.last_plain (hm : Move env sr c pc sr' c' pc' evs) (h : ∀ e ∈ c.last, e.plain) :
    ∀ e ∈ c'.last, e.plain := by
  cases hm with
  | bind => rw [(bindCommandDeadline_keeps ..).1]; exact h
  | borrowAgain _ hretry =>
    intro e he
    cases he
    exact plain_of_shouldRetry hretry
  | runAgain hretry =>
    intro e he
    cases he
    exact plain_of_shouldRetry hretry
  | runGaveUp =>
    unfold Call.noteDead
    split <;> exact h
  | _ => exact h

theorem libraryTimeout_plain {owns : Bool} {e : Err} (h : e.plain) : libraryTimeout owns e = e := by
  unfold libraryTimeout
  rw [if_neg]
  rintro ⟨_, rfl⟩
  exact h

namespace StoryInv

variable {limit : ℤ} {w w' : World} {p : ℕ} {g : Story}

theorem told (h : StoryInv limit w p g c pc) (hlive : pc ≠ .done) {o : Option CtxErr}
    (ht : Told limit p c pc o pc' evs) :
    (∀ e, o.or g.stop = some e → pc' ≠ .done → pc'.err = some (.context e)) ∧
    (o.or g.stop = none → ∀ e ∈ pc'.err, e.plain) ∧
    ∀ reply, .returned p reply ∈ w.log ++ evs →
      pc' = .done ∧ Verdict limit (o.or g.stop) c.libraryOwnsDeadline reply := by
  have hsilent : ∀ reply, .returned p reply ∉ w.log :=
    fun reply hmem => hlive (h.answer reply hmem).1
  have hnone : (∀ reply, .returned p reply ∉ evs) → ∀ {P : Decoded → Prop},
      ∀ reply, .returned p reply ∈ w.log ++ evs → P reply := by
    intro hevs P reply hmem
    rcases List.mem_append.mp hmem with hmem | hmem
    · exact absurd hmem (hsilent reply)
    · exact absurd hmem (hevs reply)
  have hone : ∀ {reply reply' : Decoded},
      .returned p reply ∈ w.log ++ [Event.returned p reply'] → reply = reply' := by
    intro reply reply' hmem
    rcases List.mem_append.mp hmem with hmem | hmem
    · exact absurd hmem (hsilent reply)
    · exact (Event.returned.inj (List.mem_singleton.mp hmem)).2
  cases ht with
  | stopped herr hevs =>
    refine ⟨fun e he _ => ?_, nofun, hnone hevs⟩
    cases he
    exact herr
  | returns => exact ⟨fun _ _ hne => absurd rfl hne, nofun, fun reply hmem => ⟨rfl, hone hmem⟩⟩
  | on herr hkeep hevs =>
    refine ⟨fun e he _ => hkeep e (h.carried e he hlive), fun hn e he => ?_, hnone hevs⟩
    rcases herr e he with hplain | hold
    · exact hplain
    · exact h.plain hn e hold
  | @gaveUp e herr =>
    refine ⟨fun _ _ hne => absurd rfl hne, fun _ => nofun, fun reply hmem => ⟨rfl, ?_⟩⟩
    rw [hone hmem, Option.none_or]
    unfold Verdict
    cases hg : g.stop with
    | some stop =>
      have hcarried := h.carried stop hg hlive
      rcases herr with herr | ⟨herr, _⟩
      · rw [herr] at hcarried
        rw [Option.some.inj hcarried]
      · rw [herr] at hcarried
        cases hcarried
    | none =>
      have hplain : e.plain := by
        rcases herr with herr | ⟨_, hlast⟩
        · exact h.plain hg e herr
        · exact h.last e hlast
      rw [libraryTimeout_plain hplain]
      refine .inl fun e' he' => ?_
      cases he'
      exact hplain
  | succeeds herr =>
    refine ⟨fun _ _ hne => absurd rfl hne, fun _ => nofun, fun reply hmem => ⟨rfl, ?_⟩⟩
    rw [hone hmem, Option.none_or]
    unfold Verdict
    cases hg : g.stop with
    | some stop =>
      have hcarried := h.carried stop hg hlive
      rw [herr] at hcarried
      cases hcarried
    | none => exact .inl nofun
  | neverTried herr hlast hlimit =>
    refine ⟨fun _ _ hne => absurd rfl hne, fun _ => nofun, fun reply hmem => ⟨rfl, ?_⟩⟩
    rw [Option.none_or]
    unfold Verdict
    cases hg : g.stop with
    | some stop =>
      have hcarried := h.carried stop hg hlive
      rw [herr] at hcarried
      cases hcarried
    | none =>
      rw [h.tried.fresh hlast] at hlimit
      exact .inr hlimit

theorem library_same (hpc : pc ≠ .start) :
    (storyNotes.step env sr inp c pc g).library = g.library := by
  cases pc with
  | start => exact absurd rfl hpc
  | _ => rfl

theorem own_start (h : StoryInv limit w p g c .start)
    (hadv : advance (w.env p) w.pool inp c .start = some (sr', c', pc', evs)) :
    (c'.ctx.err = c.ctx.err) ∧ (c'.ctx.err = some .deadlineExceeded → c'.ctx = c.ctx) ∧
    (pc' ≠ .done → c'.ctx.deadline.isSome) ∧
    (pc' = .done → c'.libraryOwnsDeadline = c.libraryOwnsDeadline) ∧
    ∃ library, (storyNotes.step (w.env p) w.pool inp c .start g).library = some library ∧
      Owner (storyNotes.step (w.env p) w.pool inp c .start g) c' pc' library := by
  obtain ⟨hdeadline, hfalse, _⟩ := h.start rfl
  cases Move.of_advance hadv with
  | @deadOnArrival e he =>
    refine ⟨rfl, fun _ => rfl, fun hne => absurd rfl hne, fun _ => rfl, _, rfl,
      Or.inr ⟨hfalse, ?_⟩⟩
    cases e with
    | canceled =>
      refine .inr ⟨rfl, ?_⟩
      show c.ctx.err.or g.stop = some .canceled
      rw [he]
      rfl
    | deadlineExceeded =>
      obtain ⟨d, hd, hdue⟩ := h.honest he
      have hpos := w.cfg.commandTimeoutOf_pos
      refine .inl ⟨d, hdeadline ▸ hd, ?_⟩
      show d ≤ w.now + w.cfg.commandTimeoutOf
      omega
  | bind he =>
    obtain ⟨herr, hsome, howner⟩ := bindCommandDeadline_spec w.cfg w.now c
    refine ⟨herr, fun hd => ?_, fun _ => hsome, nofun, _, rfl, ?_⟩
    · cases (herr.trans he).symm.trans hd
    · rw [hdeadline] at howner
      rcases howner with ⟨howns, hlt⟩ | ⟨howns, hle⟩
      · exact .inl ⟨howns, hlt⟩
      · exact .inr ⟨howns.trans hfalse, Or.inl hle⟩

theorem own (h : StoryInv limit w p g c pc) (hlimit : retryLimit w.cfg.maxRetries = limit)
    (hadv : advance (w.env p) w.pool inp c pc = some (sr', c', pc', evs)) :
    StoryInv limit (w.moved p sr' (.exec c' pc') evs) p
      (storyNotes.step (w.env p) w.pool inp c pc g) c' pc' := by
  have hm := Move.of_advance hadv
  have hlive : pc ≠ .done := by
    rintro rfl
    cases hadv
  have htold := Told.of_advance (fun hpc => h.bound hpc hlive) (fun hpc => (h.start hpc).2.1) hadv
  rw [show retryLimit (w.env p).cfg.maxRetries = limit from hlimit] at htold
  obtain ⟨hcarried, hplain, hanswer⟩ := h.told hlive htold
  have hcancelled : c'.ctx.err = c.ctx.err → g.cancelled = true → c'.ctx.err = some .canceled ∧
      ∀ e ∈ (learns (w.env p) w.pool inp c pc).or g.stop, e = .canceled := by
    intro herr hc
    obtain ⟨hcanc, hstop⟩ := h.cancelled hc
    refine ⟨herr.trans hcanc, fun e he => ?_⟩
    cases hl : learns (w.env p) w.pool inp c pc with
    | some e' =>
      rw [hl] at he
      cases he
      exact learns_of_err hcanc hl
    | none =>
      rw [hl] at he
      exact hstop e he
  by_cases hpc : pc = .start
  · subst hpc
    obtain ⟨herr, hctx, hbound, howns, howner⟩ := h.own_start hadv
    refine ⟨h.tried.own hlimit hadv, fun hd => ?_, fun hpc' => absurd hpc' hm.not_start,
      fun _ => hbound, fun _ => howner, hcarried, hplain, hm.last_plain h.last,
      fun reply hmem => ?_, hcancelled herr⟩
    · have hsame := hctx hd
      rw [hsame] at hd ⊢
      exact h.honest hd
    · obtain ⟨hdone, hv⟩ := hanswer reply hmem
      rw [howns hdone]
      exact ⟨hdone, hv⟩
  · obtain ⟨hctx, howns⟩ := hm.ctx_same hpc
    refine ⟨h.tried.own hlimit hadv, ?_, fun hpc' => absurd hpc' hm.not_start,
      fun _ _ => ?_, fun _ => ?_, hcarried, hplain, hm.last_plain h.last,
      fun reply hmem => ?_, hcancelled (by rw [hctx])⟩
    · rw [hctx]
      exact h.honest
    · rw [hctx]
      exact h.bound hpc hlive
    · obtain ⟨library, hlib, howner⟩ := h.owner hpc
      refine ⟨library, (library_same hpc).trans hlib, ?_⟩
      unfold Owner
      rw [howns]
      rcases howner with howner | ⟨hfalse, hd | ⟨hdone, _⟩⟩
      · exact .inl howner
      · exact .inr ⟨hfalse, Or.inl hd⟩
      · exact absurd hdone hlive
    · rw [howns]
      exact hanswer reply hmem

theorem unwound (h : StoryInv limit w p g c pc) (hm : Unwind w.pool pc sr' pc') :
    StoryInv limit (w.moved p sr' (.exec c pc') []) p { g with stop := none } c pc' := by
  have hpcs : pc ≠ .start ∧ pc ≠ .done ∧ pc' ≠ .start ∧ pc'.err = none := by
    cases hm <;> exact ⟨nofun, nofun, nofun, rfl⟩
  obtain ⟨hstart, hlive, hstart', herr⟩ := hpcs
  refine ⟨h.tried.unwound hm, h.honest, fun hpc => absurd hpc hstart',
    fun _ _ => h.bound hstart hlive, fun _ => ?_, nofun, fun _ e he => ?_, h.last,
    fun reply hmem => ?_, fun hc => ⟨(h.cancelled hc).1, nofun⟩⟩
  · obtain ⟨library, hlib, howner⟩ := h.owner hstart
    refine ⟨library, hlib, howner.imp_right fun ho => ⟨ho.1, ho.2.imp_right fun hdone => ?_⟩⟩
    exact absurd hdone.1 hlive
  · rw [herr] at he
    cases he
  · rw [show (World.moved ..).log = w.log from List.append_nil _] at hmem
    exact absurd (h.answer reply hmem).1 hlive

theorem ended (h : StoryInv limit w p g c pc) {e : CtxErr} {b : Bool}
    (hdue : e = .deadlineExceeded → ∃ d ∈ c.ctx.deadline, d ≤ w.now)
    (hb : b = true → e = .canceled ∧ g.stop = none) :
    StoryInv limit (w.ended p c pc e) p { g with cancelled := b }
      { c with ctx := { c.ctx with err := some e } } pc := by
  refine ⟨h.tried.ended, fun he => ?_, h.start, h.bound, h.owner, h.carried, h.plain, h.last,
    h.answer, fun hc => ?_⟩
  · exact hdue (Option.some.inj he)
  · obtain ⟨rfl, hstop⟩ := hb hc
    exact ⟨rfl, fun e' he' => by rw [hstop] at he'; cases he'⟩

theorem elsewhere (h : StoryInv limit w p g c pc) (he : w.Elsewhere p w') :
    StoryInv limit w' p g c pc := by
  refine ⟨h.tried.elsewhere he.now, fun herr => ?_, h.start, h.bound, h.owner, h.carried, h.plain,
    h.last, fun reply hmem => ?_, h.cancelled⟩
  · obtain ⟨d, hd, hdue⟩ := h.honest herr
    exact ⟨d, hd, hdue.trans he.now⟩
  · obtain ⟨evs, hlog, hevs⟩ := he.log
    rw [hlog] at hmem
    rcases List.mem_append.mp hmem with hmem | hmem
    · exact h.answer reply hmem
    · exact absurd rfl (hevs _ hmem)

theorem begin {args : List Bytes} {ctx : Ctx} (ha : HonestContext w (.exec args ctx))
    (hlog : ∀ ev ∈ w.log, ¬ ev.of w.next) :
    StoryInv limit (w.spawn (.exec (.begin args ctx) .start)) w.next (storyNotes.start w.now ctx)
      (.begin args ctx) .start :=
  ⟨.begin _ _ _ _, ha, fun _ => ⟨rfl, rfl, rfl⟩, fun h => absurd rfl h, fun h => absurd rfl h,
    nofun, fun _ => nofun, nofun, fun _ hmem => absurd rfl (hlog _ hmem),
    fun hc => ⟨of_decide_eq_true hc, nofun⟩⟩

theorem keeper (limit : ℤ) : Keeper storyNotes HonestContext
    (fun w => retryLimit w.cfg.maxRetries = limit) (StoryInv limit) where
  client := fun h _ hs => by rw [World.step_cfg hs]; exact h
  start := fun _ ha hlog => .begin ha hlog
  own := fun hlimit _ h hadv => h.own hlimit hadv
  unwound := fun _ _ _ h hm => h.unwound hm
  cancelled := fun _ hnone h =>
    h.ended nofun fun hb => ⟨rfl, (of_decide_eq_true hb).2⟩
  expired := fun _ hnone hd hdue h => by
    refine h.ended (fun _ => ⟨_, hd, hdue⟩) fun hb => ?_
    rw [(h.cancelled hb).1] at hnone
    cases hnone
  elsewhere := fun _ _ _ helse h => h.elsewhere helse

end StoryInv

/-- What a command returns says whose deadline it was. -/
structure Attributed (g : Story) (reply : Decoded) : Prop where
  /-- The budget is the nearer deadline. -/
  library : ∀ library ∈ g.library, (∀ d ∈ g.deadline, library < d) →
    reply ≠ .error (.context .deadlineExceeded) ∧
      (g.stop = some .deadlineExceeded → reply = .error .timeout)
  /-- The caller's deadline is. -/
  caller : ∀ library ∈ g.library, (∃ d ∈ g.deadline, d ≤ library) → reply ≠ .error .timeout
  cancelled : g.cancelled = true → g.stop ≠ none → reply = .error (.context .canceled)

theorem Verdict.attributed {limit : ℤ} {g : Story} {c : Call} {pc : Pc} {reply : Decoded}
    {library : ℤ} (hlimit : 0 ≤ limit) (hlib : g.library = some library)
    (howner : Owner g c pc library)
    (hcancelled : g.cancelled = true → ∀ e ∈ g.stop, e = .canceled)
    (h : Verdict limit g.stop c.libraryOwnsDeadline reply) : Attributed g reply := by
  unfold Verdict at h
  cases hg : g.stop with
  | none =>
    rw [hg] at h
    have hplain : ∀ e ∈ reply.err, e.plain := h.resolve_right (not_lt.mpr hlimit)
    refine ⟨fun _ _ _ => ⟨?_, fun hs => by rw [hg] at hs; cases hs⟩, fun _ _ _ => ?_,
      fun _ hne => absurd hg hne⟩
    · rintro rfl
      exact hplain _ rfl
    · rintro rfl
      exact hplain _ rfl
  | some e =>
    rw [hg] at h
    subst h
    refine ⟨fun l hl hlt => ?_, fun l hl hle => ?_, fun hc _ => ?_⟩
    · obtain rfl := Option.some.inj (hlib.symm.trans hl)
      rcases howner with ⟨howns, _⟩ | ⟨hfalse, ⟨d, hd, hdle⟩ | ⟨_, hcanc⟩⟩
      · rw [howns]
        cases e <;> simp [libraryTimeout, hg]
      · exact absurd (hlt d hd) (not_lt.mpr hdle)
      · rw [hg] at hcanc
        obtain rfl := Option.some.inj hcanc
        simp [libraryTimeout, hg]
    · obtain rfl := Option.some.inj (hlib.symm.trans hl)
      obtain ⟨d, hd, hdle⟩ := hle
      rcases howner with ⟨_, hlt⟩ | ⟨hfalse, _⟩
      · exact absurd (hlt d hd) (not_lt.mpr hdle)
      · rw [hfalse]
        simp [libraryTimeout]
    · obtain rfl := hcancelled hc e hg
      simp [libraryTimeout]

/-- In every run with contexts that keep their deadlines, the error a command
returns says whether the caller's deadline or the client's own ended it. -/
theorem deadline_attribution {cfg : Config} {w₀ : World} {s : Noted Story} {acts : List Action}
    (hnew : new cfg = .ok w₀) (hretry : -1 ≤ cfg.maxRetries)
    (hctx : Along (Noted.step storyNotes) (fun s a => HonestContext s.world a)
      (.init storyNotes w₀) acts)
    (hrun : run (Noted.step storyNotes) (.init storyNotes w₀) acts = some s)
    {p : ℕ} {c : Call} {pc : Pc} {reply : Decoded} (hp : s.world.procs p = some (.exec c pc))
    (hret : .returned p reply ∈ s.world.log) :
    (s.notes p).library ≠ none ∧ Attributed (s.notes p) reply := by
  obtain ⟨hinit, _⟩ := new_ok hnew
  have hlimit := (new_retryLimit hnew).mpr hretry
  rw [hinit] at hrun hctx
  have hinv := ((StoryInv.keeper _).run rfl hctx hrun).commands p c pc hp
  obtain ⟨rfl, hverdict⟩ := hinv.answer reply hret
  obtain ⟨library, hlib, howner⟩ := hinv.owner nofun
  refine ⟨by rw [hlib]; nofun, ?_⟩
  exact hverdict.attributed hlimit hlib howner fun hc => (hinv.cancelled hc).2

/-- The budget runs out while the command waits for its reply. -/
def budgetSpent : List Action :=
  dialFor 0 ++ [Action.run 0 .connected] ++ sendFor 0 ++
    [Action.tick 900000000, .run 0 (.readFailed .deadline)] ++ quiet 0 6

theorem deadline_attribution_budgetSpent : ∃ w₀ s c, new oneSocket = .ok w₀ ∧
    run (Noted.step storyNotes) (.init storyNotes w₀) budgetSpent = some s ∧
    s.world.procs 0 = some (.exec c .done) ∧ (s.notes 0).stop = some .deadlineExceeded ∧
    .returned 0 (.error .timeout) ∈ s.world.log ∧
    ((s.notes 0).library ≠ none ∧ Attributed (s.notes 0) (.error .timeout)) :=
  ⟨_, _, _, rfl, rfl, rfl, by decide +kernel, @List.mem_of_getElem? _ _ 1 _ rfl,
    @deadline_attribution oneSocket _ _ budgetSpent rfl (by decide) (by decide +kernel) rfl 0 _ _
      _ rfl (@List.mem_of_getElem? _ _ 1 _ rfl)⟩

end MiddlewareUtils.SimpleRedis
