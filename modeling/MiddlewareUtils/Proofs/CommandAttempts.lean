import MiddlewareUtils.Proofs.PoolTurns

/-!
# How often a command is sent

`exec` decides after every attempt whether to make another one, from an error
that may have come out of the borrow, the handshake or the exchange. The
world's log has the sends and the answer but not what each attempt came to,
so a watcher notes it: `outcome` reads it off the step that ends the attempt,
before `exec` looks at it. Which outcomes are worth another attempt is said
here a second time, by what they are (`Outcome.retryable`), and
`shouldRetry_eq` and `stops_iff` hold `shouldRetry` and the check around it
to that list.

`Round` is one step as the retry loop sees it: the attempt goes on, or its
outcome leads to the next one, or it is returned. The bound on the sends is
counted beside it. A command has sent at most once per attempt it has
finished, plus once if it is past the write of the present one, and the loop
is only entered while the attempt is within the limit.
-/

namespace MiddlewareUtils.SimpleRedis

open Lib
open Function (update update_self update_of_ne)

/-! ## What an attempt comes to -/

inductive Outcome where
  /-- `runOnConn` returned. -/
  | returned (reply : Decoded)
  /-- `borrowSocket` failed, with the client closed by then or not. -/
  | noSocket (e : Err) (handshakeFailed closed : Bool)
  /-- The context was done before the attempt. -/
  | fired (e : CtxErr)

namespace Outcome

def retryable : Outcome → Bool
  | returned (.error .unreachable) => true
  | returned (.error (.reply text)) => isRetryableRedisReply (.reply text)
  | noSocket .unreachable false false => true
  | _ => false

def err : Outcome → Option Err
  | returned (.ok _) => none
  | returned (.error e) => some e
  | noSocket e _ _ => some e
  | fired e => some (.context e)

def answer (libraryOwnsDeadline : Bool) : Outcome → Decoded
  | returned (.ok values) => .ok values
  | returned (.error e) => .error (libraryTimeout libraryOwnsDeadline e)
  | noSocket e _ _ => .error (libraryTimeout libraryOwnsDeadline e)
  | fired e => .error (libraryTimeout libraryOwnsDeadline (.context e))

theorem answer_of_err {o : Outcome} {e : Err} (h : o.err = some e) (lib : Bool) :
    o.answer lib = .error (libraryTimeout lib e) := by
  cases o with
  | returned reply =>
    cases reply with
    | ok values => exact nomatch h
    | error e' => cases h; rfl
  | noSocket e' hs closed => cases h; rfl
  | fired e' => cases h; rfl

theorem err_of_retryable {o : Outcome} (h : o.retryable = true) : ∃ e, o.err = some e := by
  cases o with
  | returned reply =>
    cases reply with
    | ok values => exact nomatch h
    | error e => exact ⟨e, rfl⟩
  | noSocket e hs closed => exact ⟨e, rfl⟩
  | fired e => exact nomatch h

end Outcome

theorem shouldRetry_eq (e : Err) :
    shouldRetry e false = (Outcome.returned (.error e)).retryable := by
  cases e with
  | context e => rfl
  | reply text => rfl
  | _ => decide +kernel

/-- An error reply reaches the retry loop from a borrow only as a failed handshake. -/
def Failure.handshakes : Failure → Prop
  | .err (.reply _) hs => hs = true
  | _ => True

theorem stops_iff {e : Err} {hs : Bool} (h : (Failure.err e hs).handshakes) (closed : Bool) :
    (closed = true ∨ shouldRetry e hs = false) ↔
      (Outcome.noSocket e hs closed).retryable = false := by
  cases e with
  | reply text =>
    cases h
    cases closed <;> exact ⟨fun _ => rfl, fun _ => Or.inr rfl⟩
  | context e => cases closed <;> exact ⟨fun _ => rfl, fun _ => Or.inr rfl⟩
  | _ => clear h; revert hs closed; decide +kernel

def outcome (env : Env) (sr : Pool) (inp : Input) (c : Call) : Pc → Option Outcome
  | .start => c.ctx.err.map .fired
  | .attempt =>
    if retryLimit env.cfg.maxRetries < c.attempt then none
    else (contextStop c.ctx env.now).map .fired
  | .backoff =>
    match inp with
    | .timer => (contextStop c.ctx env.now).map .fired
    | .ctxDone => c.ctx.err.map .fired
    | _ => none
  | .borrowFailed (.err e handshakeFailed) => some (.noSocket e handshakeFailed sr.closed)
  | .ran (.returned reply) => some (.returned reply)
  | _ => none

/-! ## One step of the retry loop -/

def Pc.handshakes : Pc → Prop
  | .refund f => f.handshakes
  | .borrowFailed f => f.handshakes
  | _ => True

inductive Round (limit : ℤ) (p : ℕ) (c : Call) :
    Option Outcome → Call → Pc → List Event → Prop
  | on {c' pc' evs} (hlive : pc' ≠ .done) (hlast : c'.last = c.last)
      (hattempt : c'.attempt = c.attempt) (hevs : ∀ q reply, .returned q reply ∉ evs) :
      Round limit p c none c' pc' evs
  | again {o c'} (hretry : o.retryable = true) (hlast : c'.last = o.err) :
      Round limit p c (some o) c' .attempt []
  | stop {o c'} (hretry : o.retryable = false) :
      Round limit p c (some o) c' .done [.returned p (o.answer c'.libraryOwnsDeadline)]
  | exhausted {e} (hlast : c.last = some e) :
      Round limit p c none c .done [.returned p (.error (libraryTimeout c.libraryOwnsDeadline e))]
  | neverTried (hlast : c.last = none) (hlimit : limit < c.attempt) :
      Round limit p c none c .done [.returned p (.error .timeout)]
  | panicked : Round limit p c none c .done [.panicked p]

variable {env : Env} {sr sr' : Pool} {inp : Input} {c c' : Call} {pc pc' : Pc}
  {evs : List Event}

theorem bindCommandDeadline_keeps (cfg : Config) (now : ℤ) (c : Call) :
    (bindCommandDeadline cfg now c).last = c.last ∧
      (bindCommandDeadline cfg now c).attempt = c.attempt ∧
      (bindCommandDeadline cfg now c).args = c.args := by
  unfold bindCommandDeadline
  dsimp only
  split
  · split <;> exact ⟨rfl, rfl, rfl⟩
  · exact ⟨rfl, rfl, rfl⟩

theorem Call.noteDead_keeps (c : Call) (e : Err) :
    (c.noteDead e).attempt = c.attempt ∧ (c.noteDead e).args = c.args ∧
      (c.noteDead e).libraryOwnsDeadline = c.libraryOwnsDeadline := by
  unfold Call.noteDead
  split <;> exact ⟨rfl, rfl, rfl⟩

theorem afterDo_live (cfg : Config) (s : ℕ) (reply : Decoded) (reusable : Bool) (verb : Verb) :
    afterDo cfg s reply reusable verb ≠ .start ∧ afterDo cfg s reply reusable verb ≠ .done ∧
      (afterDo cfg s reply reusable verb).handshakes := by
  cases verb with
  | command => exact ⟨nofun, nofun, trivial⟩
  | auth | select => cases reply <;> exact ⟨nofun, nofun, trivial⟩

theorem Move.not_start (hm : Move env sr c pc sr' c' pc' evs) : pc' ≠ .start := by
  cases hm with
  | leave => exact (afterDo_live ..).1
  | _ => nofun

theorem Move.handshakes (hm : Move env sr c pc sr' c' pc' evs) (h : pc.handshakes) :
    pc'.handshakes := by
  cases hm with
  | leave => exact (afterDo_live ..).2.2
  | refund => exact h
  | @hangUp s e => cases e <;> first | rfl | trivial
  | _ => trivial

theorem Round.of_backoff (h : advance env sr inp c .backoff = some (sr', c', pc', evs)) :
    Round (retryLimit env.cfg.maxRetries) env.p c (outcome env sr inp c .backoff) c' pc' evs := by
  simp only [advance] at h
  simp only [outcome]
  split at h
  · split at h
    next he => cases h; rw [he]; exact .stop rfl
    next he =>
      cases h
      rw [he]
      exact .on (fun heq => by cases heq) rfl rfl fun _ _ => List.not_mem_nil
  · split at h
    next he => cases h; rw [he]; exact .stop rfl
    · cases h
  · cases h

theorem Round.of_advance (h : advance env sr inp c pc = some (sr', c', pc', evs))
    (hpc : pc.handshakes) (hstart : pc = .start → c.libraryOwnsDeadline = false) :
    Round (retryLimit env.cfg.maxRetries) env.p c (outcome env sr inp c pc) c' pc' evs := by
  have hnil : ∀ q reply, Event.returned q reply ∉ ([] : List Event) :=
    fun _ _ => List.not_mem_nil
  by_cases hback : pc = .backoff
  · subst hback
    exact .of_backoff h
  cases Move.of_advance h with
  | @deadOnArrival e he =>
    have hround := @Round.stop (retryLimit env.cfg.maxRetries) env.p c (.fired e) c rfl
    rw [Outcome.answer, hstart rfl, libraryTimeout, if_neg (fun h => nomatch h.1)] at hround
    rw [outcome, he]
    exact hround
  | bind he =>
    obtain ⟨hlast, hattempt, _⟩ := bindCommandDeadline_keeps env.cfg env.now c
    rw [outcome, he]
    exact .on nofun hlast hattempt hnil
  | exhausted hr hl => rw [outcome, if_pos hr]; exact .exhausted hl
  | neverTried hr hl => rw [outcome, if_pos hr]; exact .neverTried hl hr
  | attemptStop hr he => rw [outcome, if_neg (not_lt.mpr hr), he]; exact .stop rfl
  | retry hr he | first hr he =>
    rw [outcome, if_neg (not_lt.mpr hr), he]
    exact .on nofun rfl rfl hnil
  | backoffStop | backoffOver | backoffDone => exact absurd rfl hback
  | borrowGaveUp hstop => exact .stop ((stops_iff hpc _).mp hstop)
  | borrowAgain hc hretry =>
    refine .again (Bool.eq_true_of_not_eq_false fun hno => ?_) rfl
    rcases (stops_iff hpc _).mpr hno with hclosed | hno
    · exact nomatch hc.symm.trans hclosed
    · exact nomatch hretry.symm.trans hno
  | succeed => exact .stop rfl
  | @runAgain e hretry => exact .again ((shouldRetry_eq e).symm.trans hretry) rfl
  | @runGaveUp e hretry =>
    have hround := @Round.stop (retryLimit env.cfg.maxRetries) env.p c
      (.returned (.error e)) (c.noteDead e) ((shouldRetry_eq e).symm.trans hretry)
    rw [(c.noteDead_keeps e).2.2] at hround
    exact hround
  | borrowPanicked | runPanicked => exact .panicked
  | io hdo =>
    refine .on nofun rfl rfl fun q reply hmem => ?_
    cases hdo with
    | sent | unsent | sentBlind => exact nomatch List.mem_singleton.mp hmem
    | _ => exact List.not_mem_nil hmem
  | leave => exact .on (afterDo_live ..).2.1 rfl rfl hnil
  | _ => exact .on nofun rfl rfl hnil

/-! ## Counting the sends -/

def Event.sendsFor (p : ℕ) : Event → Bool
  | .written tag _ => tag.caller = p && tag.verb = .command
  | _ => false

/-- How often the command of `p` was given to `writeCommand`. -/
def World.sends (w : World) (p : ℕ) : ℕ := w.log.countP (Event.sendsFor p)

def Pc.wrote : Pc → Bool
  | .io _ .command .read | .io _ .command (.leave ..) => true
  | .stopped .. | .release .. | .closing .. | .freeTurn _ | .ran _ | .done => true
  | _ => false

def Pc.trying : Pc → Bool
  | .start | .attempt | .done => false
  | _ => true

theorem afterRead_wrote (ctx : Ctx) (now : ℤ) (reply : Decoded) (reusable : Bool) (s : ℕ)
    (verb : Verb) :
    (Pc.io s verb (afterRead ctx now reply reusable)).wrote = (Pc.io s verb .read).wrote := by
  unfold afterRead
  split <;> cases verb <;> rfl

theorem DoMove.sends {ctx : Ctx} {args : List Bytes} {n : ℕ} {verb : Verb} {s p : ℕ}
    {stage stage' : Stage} (hm : DoMove env sr ctx args ⟨p, n, verb⟩ s stage sr' stage' evs) :
    evs.countP (Event.sendsFor p) + (Pc.io s verb stage).wrote.toNat ≤
      (Pc.io s verb stage').wrote.toNat := by
  cases hm with
  | sent | unsent | sentBlind =>
    cases verb with
    | command => exact List.countP_le_length
    | auth | select => simp [Event.sendsFor, Pc.wrote]
  | refused | replied => exact Nat.le_of_eq (by rw [afterRead_wrote]; exact Nat.zero_add _)
  | arrive => exact Nat.le_of_eq (Nat.zero_add _)
  | readFailed => cases verb <;> exact Nat.le_refl _
  | _ => cases verb <;> exact Nat.zero_le _

theorem Move.sends (hm : Move env sr c pc sr' c' pc' evs) :
    evs.countP (Event.sendsFor env.p) + (c.attempt + pc.wrote.toNat) ≤
      c'.attempt + pc'.wrote.toNat := by
  have hzero : ∀ {n : ℕ}, ([] : List Event).countP (Event.sendsFor env.p) + n ≤ n :=
    Nat.le_of_eq (Nat.zero_add _)
  cases hm with
  | io hdo =>
    have := hdo.sends
    omega
  | @leave s verb reply reusable =>
    cases verb with
    | command => exact hzero
    | auth | select => exact Nat.le_trans hzero (Nat.le_add_right ..)
  | connected => exact Nat.le_trans hzero (Nat.le_add_right ..)
  | bind => rw [(bindCommandDeadline_keeps ..).2.1]; exact hzero
  | borrowAgain => exact Nat.zero_add _ ▸ Nat.le_succ _
  | runAgain =>
    show 0 + (c.attempt + 1) ≤ (c.noteDead _).attempt + 1 + 0
    rw [(c.noteDead_keeps _).1]
    omega
  | runGaveUp =>
    show 0 + (c.attempt + 1) ≤ (c.noteDead _).attempt + 1
    rw [(c.noteDead_keeps _).1]
    omega
  | deadOnArrival | exhausted | neverTried | attemptStop | backoffStop | backoffDone
  | borrowGaveUp | borrowPanicked | succeed | runPanicked =>
    show 0 + _ ≤ _
    simp only [Pc.wrote, Bool.toNat_true, Bool.toNat_false]
    omega
  | _ => exact hzero

theorem Move.within (hm : Move env sr c pc sr' c' pc' evs)
    (h : pc.trying = true → (c.attempt : ℤ) ≤ retryLimit env.cfg.maxRetries)
    (ht : pc'.trying = true) : (c'.attempt : ℤ) ≤ retryLimit env.cfg.maxRetries := by
  cases hm with
  | retry hr | first hr => exact hr
  | deadOnArrival | bind | exhausted | neverTried | attemptStop | backoffStop | backoffDone
  | borrowGaveUp | borrowAgain | borrowPanicked | succeed | runAgain | runGaveUp
  | runPanicked => exact nomatch ht
  | _ => exact h rfl

theorem sendsFor_other {p : ℕ} (hother : ∀ ev ∈ evs, ¬ ev.of p) :
    evs.countP (Event.sendsFor p) = 0 := by
  refine List.countP_eq_zero.mpr fun ev hev hsends => ?_
  have hof := hother ev hev
  cases ev with
  | written tag a =>
    simp only [Event.sendsFor, Bool.and_eq_true, decide_eq_true_eq] at hsends
    exact hof hsends.1
  | _ => exact nomatch hsends

theorem Move.args_same (hm : Move env sr c pc sr' c' pc' evs) :
    c'.args = c.args ∧
      ∀ tag a, .written tag a ∈ evs → tag.verb = .command → a = c.args := by
  have hnil : ∀ tag a, Event.written tag a ∈ ([] : List Event) → tag.verb = .command →
      a = c.args := fun _ _ hmem => absurd hmem List.not_mem_nil
  cases hm with
  | io hdo =>
    refine ⟨rfl, fun tag a hmem hverb => ?_⟩
    cases hdo with
    | sent | unsent | sentBlind =>
      cases List.mem_singleton.mp hmem
      cases hverb
      rfl
    | _ => exact absurd hmem List.not_mem_nil
  | bind => exact ⟨(bindCommandDeadline_keeps ..).2.2, hnil⟩
  | runAgain => exact ⟨(c.noteDead_keeps _).2.1, hnil⟩
  | runGaveUp =>
    exact ⟨(c.noteDead_keeps _).2.1, fun _ _ hmem => nomatch List.mem_singleton.mp hmem⟩
  | deadOnArrival | exhausted | neverTried | attemptStop | backoffStop | backoffDone
  | borrowGaveUp | borrowPanicked | succeed | runPanicked =>
    exact ⟨rfl, fun _ _ hmem => nomatch List.mem_singleton.mp hmem⟩
  | _ => exact ⟨rfl, hnil⟩

/-! ## Every run -/

/-- A client and what the attempts of its commands came to. -/
structure Tracked where
  world : World
  outcomes : ℕ → List Outcome

namespace Tracked

def init (w : World) : Tracked := ⟨w, fun _ => []⟩

def note (s : Tracked) : Action → ℕ → List Outcome
  | .run p inp =>
    match s.world.procs p with
    | some (.exec c pc) =>
      update s.outcomes p
        (s.outcomes p ++ (outcome (s.world.env p) s.world.pool inp c pc).toList)
    | _ => s.outcomes
  | _ => s.outcomes

def step (s : Tracked) (a : Action) : Option Tracked :=
  (s.world.step a).map fun w => ⟨w, s.note a⟩

end Tracked

def Concludes (limit : ℤ) (c : Call) (os : List Outcome) (reply : Decoded) : Prop :=
  match os.getLast? with
  | some o => reply = o.answer c.libraryOwnsDeadline
  | none => reply = .error .timeout ∧ limit < 0

structure SendInv (limit : ℤ) (log : List Event) (p : ℕ) (c : Call) (pc : Pc) : Prop where
  sends : log.countP (Event.sendsFor p) ≤ c.attempt + pc.wrote.toNat
  bound : (log.countP (Event.sendsFor p) : ℤ) ≤ max 0 (limit + 1)
  within : pc.trying = true → (c.attempt : ℤ) ≤ limit
  own : ∀ tag a, .written tag a ∈ log → tag.caller = p → tag.verb = .command → a = c.args

structure LoopInv (limit : ℤ) (log : List Event) (p : ℕ) (os : List Outcome) (c : Call)
    (pc : Pc) : Prop where
  last : pc ≠ .done → c.last = os.getLast?.bind Outcome.err
  first : os = [] → c.attempt = 0
  live : pc ≠ .done → ∀ o ∈ os, o.retryable = true
  again : ∀ o ∈ os.dropLast, o.retryable = true
  answer : ∀ reply, .returned p reply ∈ log → pc = .done ∧ Concludes limit c os reply

structure CommandInv (limit : ℤ) (log : List Event) (p : ℕ) (os : List Outcome) (c : Call)
    (pc : Pc) : Prop where
  sends : SendInv limit log p c pc
  loop : LoopInv limit log p os c pc
  handshakes : pc.handshakes
  start : pc = .start → c.libraryOwnsDeadline = false

section

variable {limit : ℤ} {log : List Event} {p : ℕ} {os : List Outcome} {o : Option Outcome}

theorem Move.trying_of_sent (hm : Move env sr c pc sr' c' pc' evs)
    (h : 0 < evs.countP (Event.sendsFor env.p)) : pc.trying = true ∧ c' = c := by
  cases hm with
  | io => exact ⟨rfl, rfl⟩
  | _ => exact absurd h (Nat.lt_irrefl 0)

theorem SendInv.moved (h : SendInv limit log p c pc) (hp : env.p = p)
    (hlimit : retryLimit env.cfg.maxRetries = limit) (hm : Move env sr c pc sr' c' pc' evs) :
    SendInv limit (log ++ evs) p c' pc' := by
  subst hp hlimit
  obtain ⟨hargs, hown⟩ := hm.args_same
  have hsends := hm.sends
  have hcount : (log ++ evs).countP (Event.sendsFor env.p) =
      log.countP (Event.sendsFor env.p) + evs.countP (Event.sendsFor env.p) :=
    List.countP_append
  have hnow : (log ++ evs).countP (Event.sendsFor env.p) ≤ c'.attempt + pc'.wrote.toNat := by
    have := h.sends
    omega
  refine ⟨hnow, ?_, hm.within h.within, ?_⟩
  · rcases Nat.eq_zero_or_pos (evs.countP (Event.sendsFor env.p)) with hnone | hsent
    · rw [hcount, hnone]
      exact h.bound
    · obtain ⟨htrying, rfl⟩ := hm.trying_of_sent hsent
      have hwithin := h.within htrying
      have hone := Bool.toNat_le pc'.wrote
      omega
  · intro tag a hmem hcaller hverb
    rw [hargs]
    rcases List.mem_append.mp hmem with hmem | hmem
    · exact h.own tag a hmem hcaller hverb
    · exact hown tag a hmem hverb

theorem LoopInv.round (h : LoopInv limit log p os c pc) (hpc : pc ≠ .done)
    (hr : Round limit p c o c' pc' evs) :
    LoopInv limit (log ++ evs) p (os ++ o.toList) c' pc' := by
  have hsilent : ∀ reply, .returned p reply ∉ log := fun reply hmem => hpc (h.answer reply hmem).1
  have hret : ∀ {reply reply' : Decoded},
      .returned p reply ∈ log ++ [Event.returned p reply'] → reply = reply' := by
    intro reply reply' hmem
    rcases List.mem_append.mp hmem with hmem | hmem
    · exact absurd hmem (hsilent reply)
    · cases List.mem_singleton.mp hmem
      rfl
  cases hr with
  | on hlive hlast hattempt hevs =>
    rw [Option.toList_none, List.append_nil]
    refine ⟨fun _ => hlast.trans (h.last hpc), fun hnil => hattempt.trans (h.first hnil),
      fun _ => h.live hpc, h.again, fun reply hmem => ?_⟩
    rcases List.mem_append.mp hmem with hmem | hmem
    · exact absurd hmem (hsilent reply)
    · exact absurd hmem (hevs p reply)
  | @again o c' hretry hlast =>
    rw [Option.toList_some, List.append_nil]
    refine ⟨fun _ => ?_, fun hnil => ?_, fun _ o' ho' => ?_, ?_, fun reply hmem => ?_⟩
    · rw [List.getLast?_concat]
      exact hlast
    · exact absurd hnil (List.append_ne_nil_of_right_ne_nil _ nofun)
    · rcases List.mem_append.mp ho' with ho' | ho'
      · exact h.live hpc o' ho'
      · cases List.mem_singleton.mp ho'
        exact hretry
    · rw [List.dropLast_concat]
      exact h.live hpc
    · exact absurd hmem (hsilent reply)
  | @stop o c' hretry =>
    rw [Option.toList_some]
    refine ⟨fun hne => absurd rfl hne, fun hnil => ?_, fun hne => absurd rfl hne, ?_,
      fun reply hmem => ⟨rfl, ?_⟩⟩
    · exact absurd hnil (List.append_ne_nil_of_right_ne_nil _ nofun)
    · rw [List.dropLast_concat]
      exact h.live hpc
    · rw [Concludes, List.getLast?_concat]
      exact hret hmem
  | @exhausted e hlast =>
    rw [Option.toList_none, List.append_nil]
    refine ⟨fun hne => absurd rfl hne, h.first, fun hne => absurd rfl hne, h.again,
      fun reply hmem => ⟨rfl, ?_⟩⟩
    obtain ⟨o, ho, herr⟩ := Option.bind_eq_some_iff.mp ((h.last hpc).symm.trans hlast)
    rw [Concludes, ho]
    exact (hret hmem).trans (Outcome.answer_of_err herr _).symm
  | neverTried hlast hlimit =>
    rw [Option.toList_none, List.append_nil]
    refine ⟨fun hne => absurd rfl hne, h.first, fun hne => absurd rfl hne, h.again,
      fun reply hmem => ⟨rfl, ?_⟩⟩
    have hnil : os = [] := by
      cases hos : os.getLast? with
      | none => exact List.getLast?_eq_none_iff.mp hos
      | some o =>
        obtain ⟨e, herr⟩ := Outcome.err_of_retryable
          (h.live hpc o (List.mem_of_getLast? hos))
        have hlast' := (h.last hpc).symm.trans hlast
        rw [hos] at hlast'
        exact nomatch herr.symm.trans hlast'
    have hzero := h.first hnil
    rw [Concludes, hnil]
    exact ⟨hret hmem, by omega⟩
  | panicked =>
    rw [Option.toList_none, List.append_nil]
    refine ⟨fun hne => absurd rfl hne, h.first, fun hne => absurd rfl hne, h.again,
      fun reply hmem => ?_⟩
    rcases List.mem_append.mp hmem with hmem | hmem
    · exact absurd hmem (hsilent reply)
    · exact nomatch List.mem_singleton.mp hmem

theorem CommandInv.moved (h : CommandInv limit log p os c pc) (hp : env.p = p)
    (hlimit : retryLimit env.cfg.maxRetries = limit)
    (hadv : advance env sr inp c pc = some (sr', c', pc', evs)) :
    CommandInv limit (log ++ evs) p (os ++ (outcome env sr inp c pc).toList) c' pc' := by
  have hm := Move.of_advance hadv
  have hround := Round.of_advance hadv h.handshakes h.start
  rw [hp, hlimit] at hround
  refine ⟨h.sends.moved hp hlimit hm, h.loop.round ?_ hround, hm.handshakes h.handshakes,
    fun hstart => absurd hstart hm.not_start⟩
  rintro rfl
  exact nomatch hadv

theorem CommandInv.unwound (h : CommandInv limit log p os c pc) (hm : Unwind sr pc sr' pc') :
    CommandInv limit log p os c pc' := by
  have hstart : pc' ≠ .start ∧ pc ≠ .done ∧ pc' ≠ .done ∧ pc'.handshakes := by
    cases hm <;> exact ⟨nofun, nofun, nofun, trivial⟩
  obtain ⟨hns, hpc, hpc', hhand⟩ := hstart
  refine ⟨⟨?_, h.sends.bound, fun _ => h.sends.within ?_, h.sends.own⟩,
    ⟨fun _ => h.loop.last hpc, h.loop.first, fun _ => h.loop.live hpc, h.loop.again,
      fun reply hmem => absurd (h.loop.answer reply hmem).1 hpc⟩,
    hhand, fun heq => absurd heq hns⟩
  · have hsends := h.sends.sends
    cases hm with
    | @command s stage =>
      have hone := Bool.toNat_le (Pc.io s .command stage).wrote
      show _ ≤ c.attempt + 1
      omega
    | @handshake s verb stage hv =>
      cases verb with
      | command => exact absurd rfl hv
      | auth | select => exact hsends
    | _ => exact hsends
  · cases hm <;> rfl

theorem CommandInv.append (h : CommandInv limit log p os c pc)
    (hother : ∀ ev ∈ evs, ¬ ev.of p) : CommandInv limit (log ++ evs) p os c pc := by
  have hcount : (log ++ evs).countP (Event.sendsFor p) = log.countP (Event.sendsFor p) := by
    rw [List.countP_append, sendsFor_other hother, Nat.add_zero]
  have hold : ∀ {ev : Event}, ev ∈ log ++ evs → ev.of p → ev ∈ log := by
    intro ev hmem hof
    rcases List.mem_append.mp hmem with hmem | hmem
    · exact hmem
    · exact absurd hof (hother ev hmem)
  refine ⟨⟨hcount ▸ h.sends.sends, hcount ▸ h.sends.bound, h.sends.within, ?_⟩,
    ⟨h.loop.last, h.loop.first, h.loop.live, h.loop.again, ?_⟩, h.handshakes, h.start⟩
  · intro tag a hmem hcaller
    exact h.sends.own tag a (hold hmem hcaller) hcaller
  · intro reply hmem
    exact h.loop.answer reply (hold hmem rfl)

theorem CommandInv.setCtx (h : CommandInv limit log p os c pc) (ctx : Ctx) :
    CommandInv limit log p os { c with ctx := ctx } pc :=
  ⟨⟨h.sends.sends, h.sends.bound, h.sends.within, h.sends.own⟩,
    ⟨h.loop.last, h.loop.first, h.loop.live, h.loop.again, h.loop.answer⟩, h.handshakes, h.start⟩

theorem CommandInv.begin (hlog : ∀ ev ∈ log, ¬ ev.of p) (args : List Bytes) (ctx : Ctx) :
    CommandInv limit log p [] (.begin args ctx) .start := by
  have hcount := sendsFor_other hlog
  refine ⟨⟨?_, ?_, nofun, fun tag a hmem hcaller => absurd hcaller (hlog _ hmem)⟩,
    ⟨fun _ => rfl, fun _ => rfl, fun _ => nofun, nofun, fun reply hmem => absurd rfl (hlog _ hmem)⟩,
    trivial, fun _ => rfl⟩
  · rw [hcount]
    exact Nat.zero_le _
  · rw [hcount]
    exact le_max_left _ _

end

structure AttemptInv (cfg : Config) (s : Tracked) : Prop where
  cfg_eq : s.world.cfg = cfg
  known : s.world.Known
  unborn : ∀ p, s.world.procs p = none → s.outcomes p = [] ∧ ∀ ev ∈ s.world.log, ¬ ev.of p
  commands : ∀ p c pc, s.world.procs p = some (.exec c pc) →
    CommandInv (retryLimit cfg.maxRetries) s.world.log p (s.outcomes p) c pc

namespace AttemptInv

variable {cfg : Config} {s s' : Tracked} {w : World} {p : ℕ} {proc : Proc}
  {outs : ℕ → List Outcome}

theorem init (cfg : Config) : AttemptInv cfg (.init (.init cfg)) where
  cfg_eq := rfl
  known := .init cfg
  unborn := fun _ _ => ⟨rfl, fun _ hmem => absurd hmem List.not_mem_nil⟩
  commands := fun _ _ _ hp => nomatch (show none = some _ from hp)

theorem changed (h : AttemptInv cfg s) (hcfg : w.cfg = s.world.cfg) (hknown : w.Known)
    (hprocs : w.procs = update s.world.procs p (some proc))
    (hlog : w.log = s.world.log ++ evs) (hevs : ∀ ev ∈ evs, ev.of p)
    (houts : ∀ q, q ≠ p → outs q = s.outcomes q)
    (hproc : ∀ c pc, proc = .exec c pc →
      CommandInv (retryLimit cfg.maxRetries) w.log p (outs p) c pc) :
    AttemptInv cfg ⟨w, outs⟩ := by
  have hother : ∀ q, q ≠ p → ∀ ev ∈ evs, ¬ ev.of q :=
    fun q hq ev hev hof => hq (Event.of_inj (hevs ev hev) hof)
  refine ⟨hcfg.trans h.cfg_eq, hknown, fun q hq => ?_, fun q c pc hq => ?_⟩
  · have hne : q ≠ p := by
      rintro rfl
      exact nomatch ((congrFun hprocs q).trans (update_self ..)).symm.trans hq
    have hold := (congrFun hprocs q).trans (update_of_ne hne ..)
    obtain ⟨hnil, hnone⟩ := h.unborn q (hold.symm.trans hq)
    refine ⟨(houts q hne).trans hnil, fun ev hev => ?_⟩
    rcases List.mem_append.mp (hlog ▸ hev) with hev | hev
    · exact hnone ev hev
    · exact hother q hne ev hev
  · rcases update_eq_some ((congrFun hprocs q).symm.trans hq) with ⟨rfl, hpc⟩ | ⟨hne, hold⟩
    · exact hproc c pc hpc.symm
    · show CommandInv _ w.log q (outs q) c pc
      rw [houts q hne, hlog]
      exact (h.commands q c pc hold).append (hother q hne)

theorem same (h : AttemptInv cfg s) (hcfg : w.cfg = s.world.cfg)
    (hprocs : w.procs = s.world.procs) (hnext : w.next = s.world.next)
    (hlog : w.log = s.world.log ++ evs) (hevs : ∀ ev ∈ evs, ∀ q, ¬ ev.of q) :
    AttemptInv cfg ⟨w, s.outcomes⟩ := by
  refine ⟨hcfg.trans h.cfg_eq, ?_, fun q hq => ?_, fun q c pc hq => ?_⟩
  · intro q hq
    exact (congrFun hprocs q).trans (h.known q (hnext ▸ hq))
  · obtain ⟨hnil, hnone⟩ := h.unborn q ((congrFun hprocs q).symm.trans hq)
    refine ⟨hnil, fun ev hev => ?_⟩
    rcases List.mem_append.mp (hlog ▸ hev) with hev | hev
    · exact hnone ev hev
    · exact hevs ev hev q
  · show CommandInv _ w.log q (s.outcomes q) c pc
    rw [hlog]
    exact (h.commands q c pc ((congrFun hprocs q).symm.trans hq)).append
      fun ev hev => hevs ev hev q

theorem step {a : Action} (h : AttemptInv cfg s) (hs : s.step a = some s') :
    AttemptInv cfg s' := by
  obtain ⟨w', hw, rfl⟩ := Option.map_eq_some_iff.mp hs
  have hknown := h.known.step hw
  have hnone : ∀ ev ∈ ([] : List Event), ∀ q, ¬ ev.of q := fun _ hev => absurd hev List.not_mem_nil
  have hnil : ∀ {q : ℕ}, ∀ ev ∈ ([] : List Event), ev.of q :=
    fun _ hev => absurd hev List.not_mem_nil
  have hsame := (List.append_nil s.world.log).symm
  cases World.step_cases hw with
  | exec =>
    have hnew := h.unborn _ (h.known _ (Nat.le_refl _))
    refine h.changed rfl hknown rfl hsame hnil (fun _ _ => rfl) fun c pc hpc => ?_
    cases hpc
    show CommandInv _ s.world.log _ (s.outcomes s.world.next) _ _
    rw [hnew.1]
    exact .begin hnew.2 _ _
  | close =>
    exact h.changed rfl hknown rfl hsame hnil (fun _ _ => rfl) fun _ _ hpc =>
      Proc.noConfusion hpc
  | @run p inp c pc _ _ _ _ hp =>
    obtain ⟨sr', c', pc', evs, hadv, hw'⟩ := World.run_exec hp hw
    rw [hw'] at hknown ⊢
    have hnote : s.note (.run p inp) = update s.outcomes p
        (s.outcomes p ++ (outcome (s.world.env p) s.world.pool inp c pc).toList) := by
      simp only [Tracked.note, hp]
    rw [hnote]
    refine h.changed rfl hknown rfl rfl (Move.of_advance hadv).events_own
      (fun q hq => update_of_ne hq ..) fun c₁ pc₁ hpc => ?_
    cases hpc
    rw [update_self]
    exact (h.commands p c pc hp).moved rfl (congrArg (fun k => retryLimit k.maxRetries) h.cfg_eq)
      hadv
  | @runClose p inp pc sr pc' hp =>
    have hnote : s.note (.run p inp) = s.outcomes := by simp only [Tracked.note, hp]
    rw [hnote]
    exact h.changed rfl hknown rfl rfl hnil (fun _ _ => rfl) fun _ _ hpc => Proc.noConfusion hpc
  | panic hp hm =>
    refine h.changed rfl hknown rfl rfl hnil (fun _ _ => rfl) fun c pc hpc => ?_
    cases hpc
    exact ((h.commands _ _ _ hp).unwound hm).append fun ev hev => hnone ev hev _
  | @endCtx a p c pc e ha hp =>
    have hnote : s.note a = s.outcomes := by rcases ha with rfl | rfl <;> rfl
    rw [hnote]
    refine h.changed rfl hknown rfl hsame hnil (fun _ _ => rfl) fun c pc hpc => ?_
    cases hpc
    exact (h.commands _ _ _ hp).setCtx _
  | tick | startWatch | watchClose | cut => exact h.same rfl rfl rfl hsame hnone
  | answer =>
    refine h.same rfl rfl rfl rfl fun ev hev q hof => ?_
    cases List.mem_singleton.mp hev
    exact hof

end AttemptInv

/-- How a command sent and what it returned. -/
structure Attempts (limit : ℤ) (w : World) (p : ℕ) (os : List Outcome) (c : Call) (pc : Pc) :
    Prop where
  bound : (w.sends p : ℤ) ≤ max 0 (limit + 1)
  own : ∀ tag a, .written tag a ∈ w.log → tag.caller = p → tag.verb = .command → a = c.args
  again : ∀ o ∈ os.dropLast, o.retryable = true
  stops : ∀ o ∈ os, o.retryable = false → pc = .done
  answer : ∀ reply, .returned p reply ∈ w.log → Concludes limit c os reply

/-- A command is sent at most once per allowed attempt; another attempt follows
only a transient outcome, and the last outcome is the answer. -/
theorem command_attempts {cfg : Config} {w₀ : World} {s : Tracked} {acts : List Action}
    (hnew : new cfg = .ok w₀) (hrun : run Tracked.step (.init w₀) acts = some s)
    {p : ℕ} {c : Call} {pc : Pc} (hp : s.world.procs p = some (.exec c pc)) :
    Attempts (retryLimit w₀.cfg.maxRetries) s.world p (s.outcomes p) c pc := by
  obtain ⟨hinit, _⟩ := new_ok hnew
  have hinv : AttemptInv w₀.cfg s := by
    have h₀ : AttemptInv w₀.cfg (.init w₀) := by
      rw [hinit]
      exact .init _
    exact run_inv (fun _ _ _ h hs => h.step hs) h₀ hrun
  have h := hinv.commands p c pc hp
  refine ⟨h.sends.bound, h.sends.own, h.loop.again, fun o ho hno => ?_,
    fun reply hmem => (h.loop.answer reply hmem).2⟩
  by_contra hpc
  exact nomatch hno.symm.trans (h.loop.live hpc o ho)

/-- The first attempt loses its socket, the second cannot dial. -/
def loseAndRefuse : List Action :=
  dialFor 0 ++ [Action.run 0 .connected] ++ sendFor 0 ++ [Action.run 0 (.readFailed .other)] ++
    quiet 0 7 ++ [Action.run 0 .timer] ++ quiet 0 6 ++ [Action.run 0 .refused] ++ quiet 0 3

theorem command_attempts_loseAndRefuse : ∃ w₀ s c, new oneSocket = .ok w₀ ∧
    run Tracked.step (.init w₀) loseAndRefuse = some s ∧
    s.world.procs 0 = some (.exec c .done) ∧ s.world.sends 0 = 1 ∧
    Attempts (retryLimit w₀.cfg.maxRetries) s.world 0 (s.outcomes 0) c .done :=
  ⟨_, _, _, rfl, rfl, rfl, by decide +kernel, @command_attempts oneSocket _ _ loseAndRefuse rfl rfl
    0 _ _ rfl⟩

end MiddlewareUtils.SimpleRedis
