import MiddlewareUtils.Proofs.CommandDeadlines
import MiddlewareUtils.Proofs.ReplyCorrelation
import MiddlewareUtils.Proofs.SocketLeaks

/-!
# Recovery from a dead idle vintage

A client whose peer was away has sockets on its unused list that the peer has
closed. Nothing tells it so before it writes on one. From here on the peer
is healthy (`Healthy`): it accepts every dial, it answers with replies that
are not retried, it closes no further socket; I/O fails on a socket the peer
or the client has closed and nowhere else; nobody closes the client, no
budget runs out, and no more commands are under way than there are turns.

The first attempt of a command may pop a dead socket, and then its I/O comes
back as `unreachable`. That sets `skipIdle`, and the second attempt dials. A
dialled socket is alive, and stays so, and on a live socket no I/O fails: so
what comes back is the reply. Everything else the retry loop could return is
ruled out on the way. There is always a turn, since a command that asks for
one holds none and the others are fewer than the turns. A socket on the list
carries nothing of an earlier exchange (`ReplyInv`) and no callback is about
to close it (`FitInv`). What the decoder sees is the one reply of the peer,
so what `do` returns is what the client makes of that reply.
-/

namespace MiddlewareUtils.SimpleRedis

open Lib

/-! ## A healthy peer -/

def Reply.result (r : Reply) : Decoded :=
  match readReply r.encode with
  | .done reply _ => reply
  | .fail e => .error e
  | .more => .error .issue

def Reply.final (r : Reply) : Bool :=
  match r.result with
  | .ok _ => true
  | .error e => !shouldRetry e false

def Socket.dead (sock : Socket) : Bool := sock.ended || sock.closed

def Input.ioError : Input → Option IoError
  | failed => some .other
  | writeFailed _ e | readFailed e => some e
  | _ => Option.none

def Input.isRefused : Input → Bool
  | refused => true
  | _ => false

def Pc.live : Pc → Bool
  | done => false
  | _ => true

/-- Dials are accepted, and I/O fails on dead sockets only. -/
def Pc.goesWell (sockets : ℕ → Socket) (inp : Input) : Pc → Prop
  | dialing => inp.isRefused = false
  | io s _ _ => ∀ e ∈ inp.ioError, e = .other ∧ (sockets s).dead = true
  | _ => True

def Proc.goesWell (sockets : ℕ → Socket) (inp : Input) : Proc → Prop
  | exec _ pc => pc.goesWell sockets inp
  | close _ => False

def Proc.inBudget (now : ℤ) : Proc → Prop
  | exec c pc => pc.live = true → contextStop c.ctx now = none
  | close _ => True

def Proc.live : Proc → Bool
  | exec _ pc => pc.live
  | close _ => false

/-- How many commands are under way. -/
def World.busy (w : World) : ℕ := tally (weight Pc.live) w.procs w.next

/-- The peer answers, callers leave room and time, and nothing is closed. -/
def Healthy (w : World) : Action → Prop
  | .exec _ ctx => contextStop ctx w.now = none ∧ w.busy < w.cfg.liveCap
  | .close | .panic _ => False
  | .run p inp => ∀ proc ∈ w.procs p, proc.goesWell w.pool.sockets inp
  | .tick elapsed => ∀ p < w.next, ∀ proc ∈ w.procs p, proc.inBudget (w.now + elapsed)
  -- Callers cancel the contexts of commands that have returned.
  | .cancel p | .expire p => ∀ proc ∈ w.procs p, proc.live = false
  | .startWatch _ | .watchClose _ => True
  | .answer _ r => r.final = true
  | .cut s _ => (w.pool.sockets s).dead = true

section

variable (sockets : ℕ → Socket) (inp : Input) (now : ℤ)

instance : (pc : Pc) → Decidable (pc.goesWell sockets inp)
  | .dialing => inferInstanceAs (Decidable (_ = _))
  | .io s _ _ =>
    inferInstanceAs (Decidable (∀ e ∈ inp.ioError, e = .other ∧ (sockets s).dead = true))
  | .start | .attempt | .backoff | .borrow | .borrowCtx | .takeTurn | .waitTurn | .takeIdle
  | .sweep .. | .dial | .hangUp .. | .refund .. | .borrowFailed .. | .stopped .. | .release ..
  | .closing .. | .freeTurn .. | .ran .. | .done => isTrue trivial

instance : (proc : Proc) → Decidable (proc.goesWell sockets inp)
  | .exec _ pc => inferInstanceAs (Decidable (pc.goesWell sockets inp))
  | .close _ => isFalse nofun

instance : (proc : Proc) → Decidable (proc.inBudget now)
  | .exec _ _ => inferInstanceAs (Decidable (_ → _))
  | .close _ => isTrue trivial

instance (w : World) : (a : Action) → Decidable (Healthy w a)
  | .exec .. => inferInstanceAs (Decidable (_ ∧ _))
  | .close | .panic _ => isFalse nofun
  | .run p inp => inferInstanceAs (Decidable (∀ proc ∈ w.procs p, proc.goesWell w.pool.sockets inp))
  | .tick elapsed =>
    inferInstanceAs (Decidable (∀ p < w.next, ∀ proc ∈ w.procs p,
      proc.inBudget (w.now + elapsed)))
  | .cancel p | .expire p => inferInstanceAs (Decidable (∀ proc ∈ w.procs p, proc.live = false))
  | .startWatch _ | .watchClose _ => isTrue trivial
  | .answer _ _ | .cut _ _ => inferInstanceAs (Decidable (_ = _))

end

/-! ## What a reply comes to -/

section results

variable {r : Reply} {e : Err} {log log' : List Event} {tag : Tag} {sock : Socket} {reply : Decoded}
  {rest : Bytes}

theorem Reply.result_error (h : r.result = .error e) :
    isDirtyProtocolError e ∨ ∃ text, e = replyError text := by
  unfold Reply.result at h
  split at h
  next hdone =>
    rw [h] at hdone
    exact .inr (readReply_error hdone)
  next e' hfail =>
    injection h with h
    exact .inl (h ▸ readReply_refuses _ e' hfail)
  · injection h with h
    exact .inl (.inl h.symm)

theorem Reply.result_ne (h : r.result = .error e) :
    e ≠ .unreachable ∧ e ≠ .poolWait ∧ ∀ stop, e ≠ .context stop := by
  rcases r.result_error h with (rfl | rfl) | ⟨text, rfl⟩
  · exact ⟨nofun, nofun, nofun⟩
  · exact ⟨nofun, nofun, nofun⟩
  · unfold replyError
    split <;> exact ⟨nofun, nofun, nofun⟩

theorem Reply.not_retried (hfinal : r.final = true) (h : r.result = .error e) :
    shouldRetry e false = false := by
  rw [Reply.final, h] at hfinal
  exact Bool.not_eq_true' _ ▸ hfinal

def Given (log : List Event) (tag : Tag) (reply : Decoded) : Prop :=
  ∃ r : Reply, .answered tag r ∈ log ∧ reply = r.result

theorem Given.mono (h : Given log tag reply) (hlog : log ⊆ log') : Given log' tag reply := by
  obtain ⟨r, hmem, heq⟩ := h
  exact ⟨r, hlog hmem, heq⟩

theorem Awaiting.given (h : Awaiting log tag sock)
    (hdone : readReply sock.buffer = .done reply rest) : Given log tag reply := by
  rcases h with ⟨_, hbuf, _⟩ | ⟨_, r, hwf, hmem, hpre⟩
  · rw [hbuf] at hdone
    exact nomatch hdone
  · have hbuffer : sock.buffer <+: r.encode := (List.prefix_append _ _).trans hpre
    obtain ⟨hall, _⟩ := (readReply_frames hwf).whole readReply_stable hbuffer hdone
    refine ⟨r, hmem, ?_⟩
    rw [Reply.result, ← hall, hdone]

theorem Awaiting.given_refused (h : Awaiting log tag sock)
    (hfail : readReply sock.buffer = .fail e) : Given log tag (.error e) := by
  rcases h with ⟨_, hbuf, _⟩ | ⟨_, r, _, hmem, hpre⟩
  · rw [hbuf] at hfail
    exact nomatch hfail
  · obtain ⟨t, ht⟩ := (List.prefix_append _ _).trans hpre
    refine ⟨r, hmem, ?_⟩
    rw [Reply.result, ← ht, readReply_stable.of_fail hfail]

def Whole (log : List Event) (tag : Tag) (sock : Socket) : Prop :=
  sock.ended = false → sock.owed = [] → ∃ r : Reply, r.wellFormed = true ∧
    .answered tag r ∈ log ∧ sock.buffer ++ sock.wire = r.encode

theorem Whole.mono (h : Whole log tag sock) (hlog : log ⊆ log') : Whole log' tag sock := by
  intro hended howed
  obtain ⟨r, hwf, hmem, heq⟩ := h hended howed
  exact ⟨r, hwf, hlog hmem, heq⟩

end results

/-! ## A command on its way -/

def Lost (c : Call) (reply : Decoded) : Prop :=
  reply = .error .unreachable ∧ c.fromIdle = true ∧ c.attempt = 0

def Stage.onCourse (log : List Event) (tag : Tag) (c : Call) (sock : Socket) : Stage → Prop
  | read => Whole log tag sock
  | leave reply _ => Given log tag reply ∨ Lost c reply
  | _ => True

def Refused (log : List Event) (p : ℕ) (c : Call) (e : Err) : Prop :=
  ∃ verb, Given log ⟨p, c.attempt, verb⟩ (.error e)

def Failure.onCourse (log : List Event) (p : ℕ) (c : Call) : Failure → Prop
  | err e handshakeFailed => handshakeFailed = true ∧ Refused log p c e
  | panicked => False

def Ran.onCourse (log : List Event) (p : ℕ) (c : Call) : Ran → Prop
  | returned reply => Given log ⟨p, c.attempt, .command⟩ reply ∨ Lost c reply
  | panicked => False

def Pc.onCourse (log : List Event) (sockets : ℕ → Socket) (p : ℕ) (c : Call) : Pc → Prop
  | waitTurn => False
  | sweep _ _ => c.attempt = 0
  | io s verb stage => (c.fromIdle = true → c.attempt = 0 ∧ verb = .command) ∧
      (c.fromIdle = false → (sockets s).ended = false) ∧
      stage.onCourse log ⟨p, c.attempt, verb⟩ c (sockets s)
  | hangUp _ e => Refused log p c e
  | refund f | borrowFailed f => f.onCourse log p c
  | stopped _ reply _ => (Ran.returned reply).onCourse log p c
  | release _ r _ | closing _ r | freeTurn r | ran r => r.onCourse log p c
  | _ => True

structure OnCourse (log : List Event) (sockets : ℕ → Socket) (now : ℤ) (p : ℕ) (c : Call)
    (pc : Pc) : Prop where
  inBudget : contextStop c.ctx now = none
  attempt : c.attempt ≤ 1
  skips : c.attempt = 1 → c.skipIdle = true
  place : pc.onCourse log sockets p c

/-- The caller was given what the peer answered to the command, or to the
handshake in front of it. -/
def Served (log : List Event) (p : ℕ) (reply : Decoded) : Prop :=
  ∃ n verb, n ≤ 1 ∧ Given log ⟨p, n, verb⟩ reply ∧ (verb = .command ∨ ∃ e, reply = .error e)

/-- The command is still on its way, or it has returned what it was given. -/
inductive Went (log : List Event) (sockets : ℕ → Socket) (now : ℤ) (p : ℕ) (c : Call) :
    Pc → List Event → Prop
  | on {pc evs} (hlive : pc.live = true) (hcourse : OnCourse log sockets now p c pc)
      (hevs : ∀ q reply, .returned q reply ∉ evs) : Went log sockets now p c pc evs
  | returned {reply} (hattempt : c.attempt ≤ 1) (hserved : Served log p reply) :
      Went log sockets now p c .done [.returned p reply]

section mono

variable {log log' : List Event} {p : ℕ} {c : Call} {tag : Tag} {sock : Socket}

theorem Refused.mono {e : Err} (h : Refused log p c e) (hlog : log ⊆ log') :
    Refused log' p c e := by
  obtain ⟨verb, hgiven⟩ := h
  exact ⟨verb, hgiven.mono hlog⟩

theorem Ran.onCourse_mono {r : Ran} (h : r.onCourse log p c) (hlog : log ⊆ log') :
    r.onCourse log' p c := by
  cases r with
  | returned reply => exact h.imp_left fun hgiven => hgiven.mono hlog
  | panicked => exact h

theorem Failure.onCourse_mono {f : Failure} (h : f.onCourse log p c) (hlog : log ⊆ log') :
    f.onCourse log' p c := by
  cases f with
  | err e handshakeFailed => exact ⟨h.1, h.2.mono hlog⟩
  | panicked => exact h

theorem Served.mono {reply : Decoded} (h : Served log p reply) (hlog : log ⊆ log') :
    Served log' p reply := by
  obtain ⟨n, verb, hn, hgiven, hverb⟩ := h
  exact ⟨n, verb, hn, hgiven.mono hlog, hverb⟩

theorem Pc.onCourse_of_socket {sockets sockets' : ℕ → Socket} {pc : Pc}
    (h : pc.onCourse log sockets p c) (hlog : log ⊆ log')
    (hio : ∀ s verb stage, pc = .io s verb stage →
      ((sockets s).ended = false → (sockets' s).ended = false) ∧
      (stage = .read → Whole log ⟨p, c.attempt, verb⟩ (sockets s) →
        Whole log' ⟨p, c.attempt, verb⟩ (sockets' s))) : pc.onCourse log' sockets' p c := by
  cases pc with
  | io s verb stage =>
    obtain ⟨hended, hwhole⟩ := hio s verb stage rfl
    refine ⟨h.1, fun hfrom => hended (h.2.1 hfrom), ?_⟩
    cases stage with
    | read => exact hwhole rfl h.2.2
    | leave reply reusable => exact h.2.2.imp_left fun hgiven => hgiven.mono hlog
    | _ => trivial
  | hangUp s e => exact Refused.mono h hlog
  | refund f => exact Failure.onCourse_mono h hlog
  | borrowFailed f => exact Failure.onCourse_mono h hlog
  | stopped s reply reusable => exact @Ran.onCourse_mono log log' p c (.returned reply) h hlog
  | release s r reusable => exact Ran.onCourse_mono h hlog
  | closing s r => exact Ran.onCourse_mono h hlog
  | freeTurn r => exact Ran.onCourse_mono h hlog
  | ran r => exact Ran.onCourse_mono h hlog
  | _ => exact h

theorem Pc.onCourse_mono {sockets : ℕ → Socket} {pc : Pc} (h : pc.onCourse log sockets p c)
    (hlog : log ⊆ log') : pc.onCourse log' sockets p c :=
  Pc.onCourse_of_socket h hlog fun _ _ _ _ => ⟨id, fun _ hwhole => hwhole.mono hlog⟩

end mono

/-! ## One exchange -/

variable {env : Env} {sr sr' : Pool} {inp : Input} {c c' : Call} {pc pc' : Pc}
  {evs log : List Event} {s : ℕ} {stage stage' : Stage}

theorem budget_left {ctx : Ctx} (h : contextStop ctx env.now = none) :
    0 < commandBudgetLeft env ctx := by
  obtain ⟨_, hd⟩ := contextStop_eq_none.mp h
  unfold commandBudgetLeft
  split
  next d hdeadline =>
    have := hd d hdeadline
    omega
  · exact env.cfg.commandTimeoutOf_pos

theorem ioOrContext_other {ctx : Ctx} {now : ℤ} (h : contextStop ctx now = none) :
    ioOrContext ctx now .other = .unreachable := by
  rw [ioOrContext, h]
  exact if_neg fun hand => by cases hand.2

theorem afterRead_of_none {ctx : Ctx} {now : ℤ} {reply : Decoded} {reusable : Bool}
    (h : contextStop ctx now = none) :
    afterRead ctx now reply reusable = .leave reply reusable := by
  rw [afterRead, h]

theorem DoMove.ended_same {ctx : Ctx} {args : List Bytes} {tag : Tag}
    (hm : DoMove env sr ctx args tag s stage sr' stage' evs) :
    (sr'.sockets s).ended = (sr.sockets s).ended := by
  cases hm with
  | armed | leftover => rw [Pool.armWatch, Pool.sockets_setSocket_self]
  | sent | sentBlind => rw [Pool.deliver, Pool.sockets_setSocket_self]
  | arrive => rw [Pool.fill, Pool.sockets_setSocket_self]
  | replied => rw [Pool.consume, Pool.sockets_setSocket_self]
  | _ => rfl

theorem doStep_onCourse {args : List Bytes} {tag : Tag}
    (hdo : doStep env sr inp c.ctx args tag s stage = some (sr', stage', evs))
    (hctx : contextStop c.ctx env.now = none) (hready : stage.ready log tag (sr.sockets s))
    (hfails : ∀ e ∈ inp.ioError, e = .other ∧ c.fromIdle = true ∧ c.attempt = 0)
    (h : stage.onCourse log tag c (sr.sockets s)) :
    stage'.onCourse log tag c (sr'.sockets s) := by
  cases stage with
  | enter =>
    simp only [doStep, hctx] at hdo
    cases hdo
    trivial
  | budget =>
    simp only [doStep, if_neg (not_le.mpr (budget_left hctx))] at hdo
    cases hdo
    trivial
  | arm =>
    simp only [doStep] at hdo
    split at hdo
    · cases hdo
      exact .inr ⟨rfl, (hfails .other rfl).2⟩
    · rw [if_pos hready.1] at hdo
      cases hdo
      trivial
    · cases hdo
  | write =>
    simp only [doStep] at hdo
    split at hdo
    · cases hdo
      rw [Pool.deliver, Pool.sockets_setSocket_self]
      intro _ howed
      exact absurd howed (List.append_ne_nil_of_right_ne_nil _ (List.cons_ne_nil _ _))
    next delivered e =>
      obtain ⟨rfl, hlost⟩ := hfails e rfl
      cases hdo
      exact .inr ⟨congrArg _ (ioOrContext_other hctx), hlost⟩
    · cases hdo
  | read =>
    simp only [doStep] at hdo
    split at hdo
    next hmore =>
      split at hdo
      next n =>
        split at hdo
        next hn =>
          cases hdo
          rw [Pool.fill, Pool.sockets_setSocket_self]
          intro hended howed
          obtain ⟨r, hwf, hmem, heq⟩ := h hended howed
          exact ⟨r, hwf, hmem, (Pool.prefix_fill n).trans heq⟩
        · cases hdo
      next e =>
        obtain ⟨rfl, hlost⟩ := hfails e rfl
        cases hdo
        exact .inr ⟨congrArg _ (ioOrContext_other hctx), hlost⟩
      · cases hdo
    next hfail =>
      cases hdo
      rw [afterRead_of_none hctx]
      exact .inl (Awaiting.given_refused hready hfail)
    next hdone =>
      cases hdo
      rw [afterRead_of_none hctx]
      exact .inl (Awaiting.given hready hdone)
  | leave reply reusable => cases hdo

/-! ## One step of a command -/

theorem doStep_of_advance {verb : Verb}
    (h : advance env sr inp c (.io s verb stage) = some (sr', c', pc', evs))
    (hstage : ∀ reply reusable, stage ≠ .leave reply reusable) :
    ∃ stage', c' = c ∧ pc' = .io s verb stage' ∧ doStep env sr inp c.ctx (verb.args env.cfg c)
      ⟨env.p, c.attempt, verb⟩ s stage = some (sr', stage', evs) := by
  -- `hstage` leaves only the second `io` branch.
  simp only [advance] at h
  split at h
  next hdo =>
    cases h
    exact ⟨_, rfl, rfl, hdo⟩
  · cases h

theorem DoMove.no_return {ctx : Ctx} {args : List Bytes} {tag : Tag}
    (hm : DoMove env sr ctx args tag s stage sr' stage' evs) (q : ℕ) (reply : Decoded) :
    .returned q reply ∉ evs := by
  intro hmem
  cases hm with
  | sent | unsent | sentBlind => exact nomatch List.mem_singleton.mp hmem
  | _ => exact List.not_mem_nil hmem

namespace OnCourse

theorem lost {verb : Verb} (h : OnCourse log sr.sockets env.now env.p c (.io s verb stage))
    (hintact : (Pc.io s verb stage).intact sr.sockets c)
    (hwell : (Pc.io s verb stage).goesWell sr.sockets inp) :
    ∀ e ∈ inp.ioError, e = .other ∧ c.fromIdle = true ∧ c.attempt = 0 := by
  intro e he
  obtain ⟨hother, hdead⟩ := hwell e he
  obtain ⟨hidle, halive, _⟩ := h.place
  have hclosed : (sr.sockets s).closed = false := by
    refine eq_false_of_ne_true fun hc => ?_
    exact hintact (Or.inl hc) (contextStop_eq_none.mp h.inBudget).1
  have hended : (sr.sockets s).ended = true := by
    rw [Socket.dead, hclosed, Bool.or_false] at hdead
    exact hdead
  have hfrom : c.fromIdle = true := by
    refine Bool.eq_true_of_not_eq_false fun hfrom => ?_
    rw [halive hfrom] at hended
    cases hended
  exact ⟨hother, hfrom, (hidle hfrom).1⟩

theorem moved (h : OnCourse log sr.sockets env.now env.p c pc)
    (hplace : pc'.onCourse log sr'.sockets env.p c) (hlive : pc'.live = true) :
    Went log sr'.sockets env.now env.p c pc' [] :=
  .on hlive ⟨h.inBudget, h.attempt, h.skips, hplace⟩ fun _ _ => List.not_mem_nil

theorem exchange {verb : Verb} (h : OnCourse log sr.sockets env.now env.p c (.io s verb stage))
    (hdo : doStep env sr inp c.ctx (verb.args env.cfg c) ⟨env.p, c.attempt, verb⟩ s stage =
      some (sr', stage', evs))
    (hready : (Pc.io s verb stage).ready log sr.sockets env.p c)
    (hintact : (Pc.io s verb stage).intact sr.sockets c)
    (hwell : (Pc.io s verb stage).goesWell sr.sockets inp) :
    Went log sr'.sockets env.now env.p c (.io s verb stage') evs := by
  have hm := DoMove.of_doStep hdo
  obtain ⟨hidle, halive, hstage⟩ := h.place
  refine .on rfl ⟨h.inBudget, h.attempt, h.skips, hidle, fun hfrom => ?_, ?_⟩ hm.no_return
  · rw [hm.ended_same]
    exact halive hfrom
  · exact doStep_onCourse hdo h.inBudget hready (h.lost hintact hwell) hstage

theorem ended_stopWatch : ((sr.stopWatch s).sockets s).ended = (sr.sockets s).ended := by
  unfold Pool.stopWatch
  split
  · rw [Pool.sockets_setSocket_self]
  · rfl

theorem left {verb : Verb} {reply : Decoded} {reusable : Bool}
    (h : OnCourse log sr.sockets env.now env.p c (.io s verb (.leave reply reusable))) :
    Went log (sr.stopWatch s).sockets env.now env.p c (afterDo env.cfg s reply reusable verb)
      [] := by
  obtain ⟨hidle, halive, hresult⟩ := h.place
  have hgiven : verb ≠ .command → Given log ⟨env.p, c.attempt, verb⟩ reply := by
    intro hverb
    refine hresult.resolve_right fun hlost => ?_
    exact hverb (hidle hlost.2.1).2
  have hfresh : verb ≠ .command → c.fromIdle = false := by
    intro hverb
    exact eq_false_of_ne_true fun hfrom => hverb (hidle hfrom).2
  have hnext : ∀ verb', verb ≠ .command →
      (Pc.io s verb' .enter).onCourse log (sr.stopWatch s).sockets env.p c := by
    intro verb' hverb
    refine ⟨fun hfrom => ?_, fun hfrom => ?_, trivial⟩
    · rw [hfresh hverb] at hfrom
      cases hfrom
    · rw [ended_stopWatch]
      exact halive hfrom
  cases verb with
  | command => exact h.moved hresult rfl
  | auth | select =>
    cases reply with
    | ok values => exact h.moved (hnext _ nofun) rfl
    | error e => exact h.moved ⟨_, hgiven nofun⟩ rfl

theorem gave {verb : Verb} {e : Err} (h : OnCourse log sr.sockets env.now env.p c pc)
    (hattempt : c'.attempt = c.attempt) (hgiven : Given log ⟨env.p, c.attempt, verb⟩ (.error e)) :
    Went log sr.sockets env.now env.p c' .done (fails env.p c e) := by
  obtain ⟨r, hmem, heq⟩ := hgiven
  have hsame : libraryTimeout c.libraryOwnsDeadline e = e :=
    if_neg fun hand => (Reply.result_ne heq.symm).2.2 _ hand.2
  rw [fails, hsame]
  exact .returned (hattempt ▸ h.attempt) ⟨_, verb, h.attempt, ⟨r, hmem, heq⟩, Or.inr ⟨e, rfl⟩⟩

theorem again {e : Err} (h : OnCourse log sr.sockets env.now env.p c pc)
    (hlost : Lost c (.error e)) :
    Went log sr.sockets env.now env.p ((c.noteDead e).again e) .attempt [] := by
  obtain ⟨heq, hfrom, hzero⟩ := hlost
  injection heq with heq
  have hnote : c.noteDead e = { c with skipIdle := true } := if_pos ⟨hfrom, heq⟩
  rw [hnote]
  refine .on rfl ⟨h.inBudget, ?_, fun _ => rfl, trivial⟩ fun _ _ => List.not_mem_nil
  show c.attempt + 1 ≤ 1
  omega

theorem bound (h : OnCourse log sr.sockets env.now env.p c .start) :
    Went log sr.sockets env.now env.p (bindCommandDeadline env.cfg env.now c) .attempt [] := by
  obtain ⟨herr, hdeadline⟩ := contextStop_eq_none.mp h.inBudget
  have hkept : (bindCommandDeadline env.cfg env.now c).skipIdle = c.skipIdle := by
    unfold bindCommandDeadline
    dsimp only
    split
    · split <;> rfl
    · rfl
  obtain ⟨_, hattempt, _⟩ := bindCommandDeadline_keeps env.cfg env.now c
  refine .on rfl ⟨?_, hattempt ▸ h.attempt, ?_, trivial⟩ fun _ _ => List.not_mem_nil
  · have hpos := env.cfg.commandTimeoutOf_pos
    have hown : contextStop { c.ctx with deadline := some (env.now + env.cfg.commandTimeoutOf) }
        env.now = none := by
      refine contextStop_eq_none.mpr ⟨herr, fun d hd => ?_⟩
      cases hd
      omega
    unfold bindCommandDeadline
    dsimp only
    split
    · split
      · exact h.inBudget
      · exact hown
    · exact hown
  · rw [hattempt, hkept]
    exact h.skips

theorem own (h : OnCourse log sr.sockets env.now env.p c pc)
    (hadv : advance env sr inp c pc = some (sr', c', pc', evs))
    (hready : pc.ready log sr.sockets env.p c) (hintact : pc.intact sr.sockets c)
    (hwell : pc.goesWell sr.sockets inp) (hopen : sr.closed = false)
    (hretries : 1 ≤ retryLimit env.cfg.maxRetries) (hroom : pc = .takeTurn → sr.inUseTurns ≠ 0)
    (hfinal : ∀ tag r, .answered tag r ∈ log → tag.caller = env.p → r.final = true) :
    Went log sr'.sockets env.now env.p c' pc' evs := by
  have hctx := h.inBudget
  have hclosed : sr.closed ≠ true := ne_true_of_eq_false hopen
  have hlimit : ¬ retryLimit env.cfg.maxRetries < c.attempt := by
    have := h.attempt
    omega
  have hstop : ∀ {stop}, contextStop c.ctx env.now ≠ some stop := by
    intro stop hsome
    rw [hctx] at hsome
    cases hsome
  have herr : ∀ {stop}, c.ctx.err ≠ some stop := by
    intro stop hsome
    rw [(contextStop_eq_none.mp hctx).1] at hsome
    cases hsome
  cases Move.of_advance hadv with
  | deadOnArrival he | backoffDone he | waitDone he => exact absurd he herr
  | bind => exact h.bound
  | exhausted hr | neverTried hr => exact absurd hr hlimit
  | attemptStop _ he => exact absurd he hstop
  | backoffStop he | borrowStop he | waitStop he | dialStop he | lateStop he | refusedStop he =>
    exact absurd he hstop
  | borrowClosed hc | shut hc => exact absurd hc hclosed
  | retry | first | backoffOver | borrow | borrowGo | turn | skipIdle | miss | dial =>
    exact h.moved trivial rfl
  | wait ht => exact absurd ht (hroom rfl)
  | waited | waitOver => exact h.place.elim
  | taken hskip =>
    refine h.moved ?_ rfl
    have hle := h.attempt
    have hne : c.attempt ≠ 1 := fun hone => by
      rw [h.skips hone] at hskip
      cases hskip
    show c.attempt = 0
    omega
  | swept => exact h.moved h.place rfl
  | reuse =>
    have hplace := h.place
    exact .on rfl ⟨hctx, h.attempt, h.skips, fun _ => ⟨hplace, rfl⟩, nofun, trivial⟩
      fun _ _ => List.not_mem_nil
  | connected =>
    refine .on rfl ⟨hctx, h.attempt, h.skips, nofun, fun _ => ?_, trivial⟩
      fun _ _ => List.not_mem_nil
    rw [Pool.sockets_openConn_self]
    rfl
  | refused =>
    cases inp with
    | refused => cases hwell
    | connected => cases congrArg (Option.map fun x => x.2.2.1) hadv
    | _ => cases hadv
  | @io s verb stage _ stage' _ hdo =>
    have hstage : ∀ reply reusable, stage ≠ .leave reply reusable := by
      rintro reply reusable rfl
      cases hdo
    obtain ⟨stage'', _, hpc, hdo⟩ := doStep_of_advance hadv hstage
    cases hpc
    exact h.exchange hdo hready hintact hwell
  | leave => exact h.left
  | hangUp => exact h.moved ⟨rfl, h.place⟩ rfl
  | refund =>
    refine h.moved ?_ rfl
    exact h.place
  | @borrowGaveUp e hs =>
    obtain ⟨_, verb, hgiven⟩ := h.place
    exact h.gave rfl hgiven
  | @borrowAgain e hs _ hretry =>
    obtain ⟨rfl, _⟩ := h.place
    cases e <;> cases hretry
  | borrowPanicked | runPanicked => exact h.place.elim
  | inTime | dirty | close | park | noRoom => exact h.moved h.place rfl
  | freeTurn => exact h.moved h.place rfl
  | succeed =>
    obtain ⟨r, hmem, heq⟩ := h.place.resolve_right fun hlost => nomatch hlost.1
    exact .returned h.attempt ⟨_, .command, h.attempt, ⟨r, hmem, heq⟩, Or.inl rfl⟩
  | @runAgain e hretry =>
    rcases h.place with ⟨r, hmem, heq⟩ | hlost
    · rw [Reply.not_retried (hfinal _ r hmem rfl) heq.symm] at hretry
      cases hretry
    · exact h.again hlost
  | @runGaveUp e hretry =>
    have hgiven := h.place.resolve_right fun hlost => by
      rw [Except.error.inj hlost.1] at hretry
      cases hretry
    exact h.gave (c.noteDead_keeps e).1 hgiven

end OnCourse

/-! ## Whose commands are answered -/

structure TagInv (w : World) : Prop where
  sockets : SocketInv w
  owed : ∀ s, ∀ tag ∈ (w.pool.sockets s).owed, tag.caller < w.next ∧ s < w.pool.nextSocket
  answered : ∀ tag r, .answered tag r ∈ w.log → tag.caller < w.next

theorem Pool.owed_setSocket {sock : Socket} {t : ℕ} {tag : Tag}
    (h : tag ∈ ((sr.setSocket s sock).sockets t).owed) (hsame : sock.owed = (sr.sockets s).owed) :
    tag ∈ (sr.sockets t).owed := by
  by_cases hts : t = s
  · subst hts
    rw [Pool.sockets_setSocket_self, hsame] at h
    exact h
  · rw [Pool.sockets_setSocket_of_ne hts] at h
    exact h

theorem Pool.owed_stopWatch {t : ℕ} {tag : Tag} (h : tag ∈ ((sr.stopWatch s).sockets t).owed) :
    tag ∈ (sr.sockets t).owed := by
  unfold Pool.stopWatch at h
  split at h
  · exact Pool.owed_setSocket h rfl
  · exact h

theorem Pool.owed_deliver {tag tag' : Tag} {t : ℕ}
    (h : tag' ∈ ((sr.deliver s tag).sockets t).owed) :
    tag' ∈ (sr.sockets t).owed ∨ tag' = tag ∧ t = s := by
  by_cases hts : t = s
  · subst hts
    rw [Pool.deliver, Pool.sockets_setSocket_self] at h
    exact (List.mem_append.mp h).imp_right fun hnew => ⟨List.mem_singleton.mp hnew, rfl⟩
  · rw [Pool.deliver, Pool.sockets_setSocket_of_ne hts] at h
    exact .inl h

theorem Move.owed (hm : Move env sr c pc sr' c' pc' evs) {t : ℕ} {tag : Tag}
    (h : tag ∈ (sr'.sockets t).owed) :
    tag ∈ (sr.sockets t).owed ∨ tag.caller = env.p ∧ t ∈ pc.hands := by
  cases hm with
  | io hdo =>
    cases hdo with
    | sent | sentBlind =>
      rcases Pool.owed_deliver h with hold | ⟨htag, rfl⟩
      · exact .inl hold
      · exact .inr ⟨congrArg Tag.caller htag, List.mem_singleton_self _⟩
    | armed | leftover | arrive | replied => exact .inl (Pool.owed_setSocket h rfl)
    | _ => exact .inl h
  | leave => exact .inl (Pool.owed_stopWatch h)
  | swept | hangUp | close | noRoom => exact .inl (Pool.owed_setSocket h rfl)
  | park =>
    have hstamp : tag ∈ ((sr.stamp _ env.now).sockets t).owed := h
    exact .inl (Pool.owed_setSocket hstamp rfl)
  | connected =>
    by_cases ht : t = sr.nextSocket
    · rw [ht, Pool.sockets_openConn_self] at h
      cases h
    · rw [Pool.sockets_openConn_of_ne ht] at h
      exact .inl h
  | refund | freeTurn =>
    rw [(sr.sockets_freeInUseTurn env.cfg).1] at h
    exact .inl h
  | _ => exact .inl h

namespace TagInv

variable {w w' : World}

theorem init (cfg : Config) : TagInv (World.init cfg) :=
  ⟨.init cfg, fun _ _ h => absurd h List.not_mem_nil, fun _ _ h => absurd h List.not_mem_nil⟩

theorem same (h : TagInv w) (hs : SocketInv w') (hnext : w.next ≤ w'.next)
    (hsocket : w'.pool.nextSocket = w.pool.nextSocket) (hlog : w'.log = w.log)
    (howed : ∀ s tag, tag ∈ (w'.pool.sockets s).owed → tag ∈ (w.pool.sockets s).owed) :
    TagInv w' := by
  refine ⟨hs, fun s tag ht => ?_, fun tag r hr => ?_⟩
  · obtain ⟨hcaller, hlt⟩ := h.owed s tag (howed s tag ht)
    exact ⟨hcaller.trans_le hnext, hsocket ▸ hlt⟩
  · rw [hlog] at hr
    exact (h.answered tag r hr).trans_le hnext

theorem step {a : Action} (h : TagInv w) (hstep : w.step a = some w') : TagInv w' := by
  have hs := h.sockets.step hstep
  cases World.step_cases hstep with
  | exec | close => exact h.same hs (Nat.le_succ _) rfl rfl fun _ _ => id
  | @run p _ _ _ _ _ _ _ hp hm =>
    refine ⟨hs, fun s tag ht => ?_, fun tag r hr => ?_⟩
    · refine ⟨?_, lt_of_lt_of_le ?_ (World.nextSocket_mono hstep)⟩
      · rcases hm.owed ht with hold | ⟨hcaller, _⟩
        · exact (h.owed s tag hold).1
        · show tag.caller < w.next
          rw [show tag.caller = p from hcaller]
          exact h.sockets.known.lt_next hp
      · rcases hm.owed ht with hold | ⟨_, hhand⟩
        · exact (h.owed s tag hold).2
        · exact h.sockets.held p s (World.hands_of hp ▸ hhand)
    · rcases List.mem_append.mp hr with hold | hnew
      · exact h.answered tag r hold
      · exact (hm.events_own _ hnew).elim
  | runClose hp hm =>
    refine h.same hs (le_refl _) hm.hands.2 (List.append_nil _) fun s tag ht => ?_
    cases hm with
    | close => exact Pool.owed_setSocket ht rfl
    | _ => exact ht
  | panic hp hm =>
    refine h.same hs (le_refl _) hm.hands.2 (List.append_nil _) fun s tag ht => ?_
    cases hm with
    | command | handshake => exact Pool.owed_stopWatch ht
    | _ => exact ht
  | tick | endCtx => exact h.same hs (le_refl _) rfl rfl fun _ _ => id
  | startWatch | watchClose | cut =>
    exact h.same hs (le_refl _) rfl rfl fun _ _ ht => Pool.owed_setSocket ht rfl
  | @answer s r tag owed howed =>
    refine ⟨hs, fun t tag' ht => ?_, fun tag' r' hr => ?_⟩
    · by_cases hts : t = s
      · subst hts
        have hmem : tag' ∈ owed := by
          rw [show (w.answered t tag owed r).pool.sockets t = _ from
            Function.update_self ..] at ht
          exact ht
        exact h.owed t tag' (howed ▸ List.mem_cons_of_mem _ hmem)
      · rw [show (w.answered s tag owed r).pool.sockets t = _ from
          Function.update_of_ne hts ..] at ht
        exact h.owed t tag' ht
    · rcases List.mem_append.mp hr with hold | hnew
      · exact h.answered tag' r' hold
      · cases List.mem_singleton.mp hnew
        exact (h.owed s tag (howed ▸ List.mem_cons_self)).1

end TagInv

/-! ## Every healthy run -/

structure Recovery (first : ℕ) (w : World) : Prop where
  replies : ReplyInv w
  tags : TagInv w
  fit : FitInv w
  turns : TurnInv w
  opened : w.pool.closed = false
  retries : 1 ≤ retryLimit w.cfg.maxRetries
  within : w.busy ≤ w.cfg.liveCap
  final : ∀ tag r, .answered tag r ∈ w.log → first ≤ tag.caller → r.final = true
  commands : ∀ p c pc, w.procs p = some (.exec c pc) → pc.live = true →
    first ≤ p ∧ OnCourse w.log w.pool.sockets w.now p c pc
  finished : ∀ p c, first ≤ p → w.procs p = some (.exec c .done) →
    c.attempt ≤ 1 ∧ ∃ reply, .returned p reply ∈ w.log
  returned : ∀ p reply, first ≤ p → .returned p reply ∈ w.log → Served w.log p reply

namespace Recovery

variable {first p : ℕ} {w w' : World}

theorem turn_free (h : Recovery first w) (hp : w.procs p = some (.exec c .takeTurn)) :
    w.pool.inUseTurns ≠ 0 := by
  have hle : ∀ pc : Pc, pc.holdsTurn = true → pc.live = true := by
    intro pc hholds
    cases pc with
    | done => cases hholds
    | _ => rfl
  have hlt : w.turnsHeld < w.busy :=
    tally_lt (weight_le hle) (h.turns.known.lt_next hp) (by rw [hp]; exact Nat.one_pos)
  have hturns := h.turns.turns
  have hwithin := h.within
  omega

theorem changed (h : Recovery first w) {a : Action} (hs : w.step a = some w')
    (hprocs : w'.procs = w.procs) (hnext : w'.next = w.next)
    (hclosed : w'.pool.closed = w.pool.closed) (hlog : w'.log = w.log ++ evs)
    (hret : ∀ q reply, .returned q reply ∉ evs)
    (hfinal : ∀ tag r, .answered tag r ∈ evs → r.final = true)
    (hnow : ∀ q c pc, w.procs q = some (.exec c pc) → pc.live = true →
      contextStop c.ctx w'.now = none)
    (hio : ∀ q c s verb stage, w.procs q = some (.exec c (.io s verb stage)) →
      ((w.pool.sockets s).ended = false → (w'.pool.sockets s).ended = false) ∧
      (stage = .read → Whole w.log ⟨q, c.attempt, verb⟩ (w.pool.sockets s) →
        Whole w'.log ⟨q, c.attempt, verb⟩ (w'.pool.sockets s))) : Recovery first w' := by
  have hcfg := World.step_cfg hs
  have hgrow : w.log ⊆ w'.log := by
    rw [hlog]
    exact List.subset_append_left ..
  refine ⟨h.replies.step hs, h.tags.step hs, h.fit.step hs, h.turns.step hs, hclosed.trans h.opened,
    hcfg ▸ h.retries, ?_, fun tag r hr hfirst => ?_, fun q c pc hq hlive => ?_,
    fun q c hfirst hq => ?_, fun q reply hfirst hr => ?_⟩
  · unfold World.busy
    rw [hprocs, hnext, hcfg]
    exact h.within
  · rw [hlog] at hr
    rcases List.mem_append.mp hr with hold | hnew
    · exact h.final tag r hold hfirst
    · exact hfinal tag r hnew
  · rw [hprocs] at hq
    obtain ⟨hfirst, hcourse⟩ := h.commands q c pc hq hlive
    refine ⟨hfirst, hnow q c pc hq hlive, hcourse.attempt, hcourse.skips, ?_⟩
    refine Pc.onCourse_of_socket hcourse.place hgrow fun s verb stage hpc => ?_
    subst hpc
    exact hio q c s verb stage hq
  · rw [hprocs] at hq
    obtain ⟨hattempt, reply, hr⟩ := h.finished q c hfirst hq
    exact ⟨hattempt, reply, hgrow hr⟩
  · rw [hlog] at hr
    rcases List.mem_append.mp hr with hold | hnew
    · exact (h.returned q reply hfirst hold).mono hgrow
    · exact absurd hnew (hret q reply)

theorem ended_of_dead (h : Recovery first w) {verb : Verb}
    (hp : w.procs p = some (.exec c (.io s verb stage))) (hdead : (w.pool.sockets s).dead = true) :
    (w.pool.sockets s).ended = true := by
  obtain ⟨_, hcourse⟩ := h.commands p c _ hp rfl
  have hintact : Watched c.ctx (w.pool.sockets s) := h.fit.intact p _ hp
  have hclosed : (w.pool.sockets s).closed = false := by
    refine eq_false_of_ne_true fun hc => ?_
    exact hintact (Or.inl hc) (contextStop_eq_none.mp hcourse.inBudget).1
  rw [Socket.dead, hclosed, Bool.or_false] at hdead
  exact hdead

theorem cut (h : Recovery first w) {t n : ℕ} (hdead : (w.pool.sockets t).dead = true)
    (hs : w.step (.cut t n) = some (w.runCut t n)) : Recovery first (w.runCut t n) := by
  refine h.changed hs rfl rfl rfl (List.append_nil _).symm (fun _ _ => List.not_mem_nil)
    (fun _ _ hmem => absurd hmem List.not_mem_nil)
    (fun q c pc hq hlive => (h.commands q c pc hq hlive).2.inBudget) fun q c s verb stage hq => ?_
  by_cases hst : s = t
  · subst hst
    have hended := h.ended_of_dead hq hdead
    refine ⟨fun hnot => ?_, fun _ _ hnot => ?_⟩
    · rw [hended] at hnot
      cases hnot
    · rw [show (w.runCut s n).pool.sockets s = _ from Function.update_self ..] at hnot
      cases hnot
  · rw [show (w.runCut t n).pool.sockets s = w.pool.sockets s from Function.update_of_ne hst ..]
    exact ⟨id, fun _ => id⟩

theorem answer (h : Recovery first w) {t : ℕ} {r : Reply} {tag : Tag} {owed : List Tag}
    (hfinal : r.final = true) (howed : (w.pool.sockets t).owed = tag :: owed)
    (hwf : r.wellFormed = true) (hs : w.step (.answer t r) = some (w.answered t tag owed r)) :
    Recovery first (w.answered t tag owed r) := by
  refine h.changed hs rfl rfl rfl rfl (fun q reply hmem => nomatch List.mem_singleton.mp hmem)
    (fun tag' r' hmem => ?_) (fun q c pc hq hlive => (h.commands q c pc hq hlive).2.inBudget)
    fun q c s verb stage hq => ?_
  · cases List.mem_singleton.mp hmem
    exact hfinal
  · by_cases hst : s = t
    · subst hst
      rw [show (w.answered s tag owed r).pool.sockets s = _ from Function.update_self ..]
      refine ⟨id, fun hread _ _ hnil => ?_⟩
      subst hread
      -- The command on this socket is the one that was answered.
      have hawait : Awaiting w.log ⟨q, c.attempt, verb⟩ (w.pool.sockets s) := h.replies.ready q _ hq
      rcases hawait with ⟨hone, hbuf, hwire⟩ | ⟨hnone, _⟩
      · rw [hone] at howed
        injection howed with htag _
        refine ⟨r, hwf, List.mem_append_right _ (htag ▸ List.mem_singleton_self _), ?_⟩
        show (w.pool.sockets s).buffer ++ ((w.pool.sockets s).wire ++ r.encode) = r.encode
        rw [hbuf, hwire]
        rfl
      · rw [hnone] at howed
        cases howed
    · rw [show (w.answered t tag owed r).pool.sockets s = w.pool.sockets s from
        Function.update_of_ne hst ..]
      exact ⟨id, fun _ hwhole => hwhole.mono (List.subset_append_left ..)⟩

theorem exec (h : Recovery first w) (hfirst : first ≤ w.next) {args : List Bytes} {ctx : Ctx}
    (hctx : contextStop ctx w.now = none) (hroom : w.busy < w.cfg.liveCap)
    (hs : w.step (.exec args ctx) = some (w.spawn (.exec (.begin args ctx) .start))) :
    Recovery first (w.spawn (.exec (.begin args ctx) .start)) := by
  refine ⟨h.replies.step hs, h.tags.step hs, h.fit.step hs, h.turns.step hs, h.opened,
    h.retries, ?_, h.final, fun q c pc hq hlive => ?_, fun q c hq' hq => ?_, h.returned⟩
  · show tally (weight Pc.live) (Function.update w.procs w.next _) (w.next + 1) ≤ w.cfg.liveCap
    rw [tally_spawn]
    exact hroom
  · rcases update_eq_some hq with ⟨rfl, heq⟩ | ⟨_, hold⟩
    · cases heq
      exact ⟨hfirst, hctx, Nat.zero_le _, nofun, trivial⟩
    · exact h.commands q c pc hold hlive
  · rcases update_eq_some hq with ⟨_, heq⟩ | ⟨_, hold⟩
    · cases heq
    · exact h.finished q c hq' hold

theorem ended (h : Recovery first w) {a : Action} {c' : Call} (hp : w.procs p = some (.exec c pc))
    (hdone : pc.live = false) (hattempt : c'.attempt = c.attempt)
    (hs : w.step a = some (w.setProc p (.exec c' pc))) :
    Recovery first (w.setProc p (.exec c' pc)) := by
  refine ⟨h.replies.step hs, h.tags.step hs, h.fit.step hs, h.turns.step hs, h.opened,
    h.retries, ?_, h.final, fun q x pc' hq hlive => ?_, fun q x hfirst hq => ?_, h.returned⟩
  · have htally := w.tally_set Pc.live (h.turns.known.lt_next hp) (.exec c' pc)
    have hwithin := h.within
    rw [hp] at htally
    show tally (weight Pc.live) (Function.update w.procs p _) w.next ≤ w.cfg.liveCap
    unfold World.busy at hwithin
    simp only [weight] at htally
    omega
  · rcases update_eq_some hq with ⟨_, heq⟩ | ⟨_, hold⟩
    · cases heq
      rw [hdone] at hlive
      cases hlive
    · exact h.commands q x pc' hold hlive
  · rcases update_eq_some hq with ⟨rfl, heq⟩ | ⟨_, hold⟩
    · cases heq
      rw [hattempt]
      exact h.finished q c hfirst hp
    · exact h.finished q x hfirst hold

theorem run (h : Recovery first w) (hp : w.procs p = some (.exec c pc))
    (hwell : pc.goesWell w.pool.sockets inp)
    (hadv : advance (w.env p) w.pool inp c pc = some (sr', c', pc', evs))
    (hs : w.step (.run p inp) = some (w.moved p sr' (.exec c' pc') evs)) :
    Recovery first (w.moved p sr' (.exec c' pc') evs) := by
  have hm := Move.of_advance hadv
  have hlive : pc.live = true := by
    cases pc with
    | done => cases hadv
    | _ => rfl
  obtain ⟨hfirst, hcourse⟩ := h.commands p c pc hp hlive
  have hgrow := List.subset_append_left w.log evs
  have hwent : Went w.log sr'.sockets w.now p c' pc' evs :=
    hcourse.own hadv (h.replies.ready p _ hp) (h.fit.intact p _ hp) hwell h.opened h.retries
      (fun hpc => h.turn_free (hpc ▸ hp)) fun tag r hr hcaller =>
        h.final tag r hr (by rw [show tag.caller = p from hcaller]; exact hfirst)
  refine ⟨h.replies.step hs, h.tags.step hs, h.fit.step hs, h.turns.step hs,
    hm.flag_same.1.trans h.opened, h.retries, ?_, fun tag r hr htag => ?_,
    fun q x pcq hq hqlive => ?_, fun q x hqfirst hq => ?_, fun q reply hqfirst hr => ?_⟩
  · have htally := w.tally_set Pc.live (h.turns.known.lt_next hp) (.exec c' pc')
    have hwithin := h.within
    have hone : pc'.live.toNat ≤ 1 := Bool.toNat_le _
    rw [hp] at htally
    show tally (weight Pc.live) (Function.update w.procs p _) w.next ≤ w.cfg.liveCap
    unfold World.busy at hwithin
    simp only [weight, hlive, Bool.toNat_true] at htally
    omega
  · rcases List.mem_append.mp hr with hold | hnew
    · exact h.final tag r hold htag
    · exact (hm.events_own _ hnew).elim
  · rcases update_eq_some hq with ⟨rfl, heq⟩ | ⟨hqp, hold⟩
    · cases heq
      refine ⟨hfirst, ?_⟩
      cases hwent with
      | on _ hcourse' _ =>
        exact ⟨hcourse'.inBudget, hcourse'.attempt, hcourse'.skips,
          Pc.onCourse_mono hcourse'.place hgrow⟩
      | returned => cases hqlive
    · obtain ⟨hqfirst, hqcourse⟩ := h.commands q x pcq hold hqlive
      refine ⟨hqfirst, hqcourse.inBudget, hqcourse.attempt, hqcourse.skips, ?_⟩
      refine Pc.onCourse_of_socket hqcourse.place hgrow fun s verb stage hpc => ?_
      subst hpc
      obtain ⟨_, hothers⟩ := h.fit.sockets.elsewhere hp fun t ht hlt => hm.frame ht hlt
      rw [show (w.moved p sr' (.exec c' pc') evs).pool.sockets s = _ from
        hothers q _ hqp hold s (List.mem_singleton_self s)]
      exact ⟨id, fun _ hwhole => hwhole.mono hgrow⟩
  · rcases update_eq_some hq with ⟨rfl, heq⟩ | ⟨_, hold⟩
    · cases heq
      cases hwent with
      | on hlive' => cases hlive'
      | returned hattempt =>
        exact ⟨hattempt, _, List.mem_append_right _ (List.mem_singleton_self _)⟩
    · obtain ⟨hattempt, reply, hr⟩ := h.finished q x hqfirst hold
      exact ⟨hattempt, reply, hgrow hr⟩
  · rcases List.mem_append.mp hr with hold | hnew
    · exact (h.returned q reply hqfirst hold).mono hgrow
    · cases hwent with
      | on _ _ hevs => exact absurd hnew (hevs q reply)
      | returned _ hserved =>
        cases List.mem_singleton.mp hnew
        exact hserved.mono hgrow

theorem step (h : Recovery first w) (hfirst : first ≤ w.next) {a : Action} (ha : Healthy w a)
    (hs : w.step a = some w') : Recovery first w' := by
  have hbudget : ∀ q c pc, w.procs q = some (.exec c pc) → pc.live = true →
      contextStop c.ctx w.now = none :=
    fun q c pc hq hlive => (h.commands q c pc hq hlive).2.inBudget
  cases World.step_cases hs with
  | exec => exact h.exec hfirst ha.1 ha.2 hs
  | close => exact ha.elim
  | run hp =>
    obtain ⟨sr', c', pc', evs, hadv, heq⟩ := World.run_exec hp hs
    rw [heq] at hs ⊢
    exact h.run hp (ha _ hp) hadv hs
  | runClose hp => exact (ha _ hp).elim
  | panic => exact ha.elim
  | tick =>
    refine h.changed hs rfl rfl rfl (List.append_nil _).symm (fun _ _ => List.not_mem_nil)
      (fun _ _ hmem => absurd hmem List.not_mem_nil) (fun q c pc hq hlive => ?_)
      fun _ _ _ _ _ _ => ⟨id, fun _ => id⟩
    exact ha q (h.turns.known.lt_next hq) _ hq hlive
  | endCtx hor hp =>
    rcases hor with rfl | rfl
    · exact h.ended hp (ha _ hp) rfl hs
    · exact h.ended hp (ha _ hp) rfl hs
  | startWatch hp he =>
    rw [(contextStop_eq_none.mp (hbudget _ _ _ hp rfl)).1] at he
    cases he
  | @watchClose t =>
    refine h.changed hs rfl rfl rfl (List.append_nil _).symm (fun _ _ => List.not_mem_nil)
      (fun _ _ hmem => absurd hmem List.not_mem_nil) hbudget fun q c s verb stage hq => ?_
    by_cases hst : s = t
    · subst hst
      rw [show ({ w with pool := w.pool.closeConn s } : World).pool.sockets s = _ from
        Function.update_self ..]
      exact ⟨id, fun _ => id⟩
    · rw [show ({ w with pool := w.pool.closeConn t } : World).pool.sockets s = w.pool.sockets s
        from Function.update_of_ne hst ..]
      exact ⟨id, fun _ => id⟩
  | answer howed _ hwf => exact h.answer ha howed hwf hs
  | cut => exact h.cut ha hs

end Recovery

end MiddlewareUtils.SimpleRedis
