import MiddlewareUtils.Proofs.IdleRecovery
import Mathlib.Data.Prod.Lex

/-!
# Commands on a healthy peer return

What a command still has to do is counted by its attempts and its place in
`exec` (`toil`). Every step of a command lowers the count, with two
exceptions. A write puts a command on the peer's side, which is counted
there until it is answered, so a write lowers its own count by two. And a
command that closes stale sockets or reads the bytes of a reply stays where
it is; those are counted apart, and only when nothing else is left to count
do they matter. So the pair of both counts, the second after the first,
goes down with every step of a command and every answer of the peer.

And there is always such a step. The one place a command waits for somebody
else is the read. On a dead socket the read fails. On a live one the peer
still owes the reply, or bytes of it are on the way, or all of it has
arrived, and then the decoder has made up its mind.
-/

namespace MiddlewareUtils.SimpleRedis

open Lib Function

/-! ## What is left to do -/

def Verb.rank : Verb → ℕ
  | command => 0
  | select => 10
  | auth => 20

def Stage.rank : Stage → ℕ
  | enter => 12
  | budget => 11
  | arm => 10
  | write => 9
  | read => 7
  | leave _ _ => 6

def Pc.rank : Pc → ℕ
  | start => 43
  | attempt => 42
  | backoff => 41
  | borrow => 40
  | borrowCtx => 39
  | takeTurn => 38
  | waitTurn => 37
  | takeIdle => 36
  | sweep _ _ => 35
  | dial => 34
  | dialing => 33
  | io _ verb stage => verb.rank + stage.rank
  | stopped _ _ _ => 5
  | release _ _ _ => 4
  | hangUp _ _ | closing _ _ => 3
  | refund _ | freeTurn _ => 2
  | borrowFailed _ | ran _ => 1
  | done => 0

def toil : Option Proc → ℕ
  | some (.exec c pc) => 50 * (2 - c.attempt) + pc.rank
  | _ => 0

def unswept : Option Proc → ℕ
  | some (.exec _ (.sweep stale _)) => stale.length
  | _ => 0

def Pool.load (f : Socket → ℕ) (sr : Pool) : ℕ := tally f sr.sockets sr.nextSocket

def Pool.owing : Pool → ℕ := Pool.load fun sock => sock.owed.length

def Pool.onWire : Pool → ℕ := Pool.load fun sock => sock.wire.length

def World.rank (w : World) : ℕ ×ₗ ℕ :=
  toLex (tally toil w.procs w.next + w.pool.owing, tally unswept w.procs w.next + w.pool.onWire)

/-! ## Sums over the sockets -/

section load

variable {f : Socket → ℕ} {sr : Pool} {s : ℕ} {sock : Socket}

theorem Pool.load_setSocket (hs : s < sr.nextSocket) :
    (sr.setSocket s sock).load f + f (sr.sockets s) = sr.load f + f sock :=
  tally_update hs

theorem Pool.load_same (h : f sock = f (sr.sockets s)) :
    (sr.setSocket s sock).load f = sr.load f := by
  by_cases hs : s < sr.nextSocket
  · have hload : (sr.setSocket s sock).load f + f (sr.sockets s) = sr.load f + f sock :=
      Pool.load_setSocket hs
    omega
  · show tally f (sr.setSocket s sock).sockets sr.nextSocket = tally f sr.sockets sr.nextSocket
    unfold tally
    refine Finset.sum_congr rfl fun t ht => ?_
    have hts : t ≠ s := fun heq => hs (heq ▸ Finset.mem_range.mp ht)
    rw [Pool.sockets_setSocket_of_ne hts]

theorem Pool.load_stopWatch (h : ∀ sock, f { sock with watch := .off } = f sock) :
    (sr.stopWatch s).load f = sr.load f := by
  unfold Pool.stopWatch
  split
  · exact Pool.load_same (h _)
  · rfl

theorem Pool.load_freeInUseTurn (cfg : Config) : (sr.freeInUseTurn cfg).load f = sr.load f := by
  unfold Pool.freeInUseTurn
  split <;> rfl

theorem Pool.load_openConn (h : f .fresh = 0) : sr.openConn.load f = sr.load f := by
  show tally f (update sr.sockets sr.nextSocket .fresh) (sr.nextSocket + 1) = _
  rw [tally_spawn, h]
  rfl

end load

/-! ## One step of a command -/

def Lowers (c : Call) (pc : Pc) (sr : Pool) (c' : Call) (pc' : Pc) (sr' : Pool) : Prop :=
  toil (some (.exec c' pc')) + sr'.owing < toil (some (.exec c pc)) + sr.owing ∨
    toil (some (.exec c' pc')) + sr'.owing = toil (some (.exec c pc)) + sr.owing ∧
      unswept (some (.exec c' pc')) + sr'.onWire < unswept (some (.exec c pc)) + sr.onWire

variable {env : Env} {sr sr' : Pool} {inp : Input} {c c' : Call} {pc pc' : Pc}
  {evs log : List Event} {s : ℕ} {stage stage' : Stage}

theorem Lowers.of_rank (hattempt : c'.attempt = c.attempt) (hrank : pc'.rank < pc.rank)
    (howing : sr'.owing = sr.owing) : Lowers c pc sr c' pc' sr' := by
  left
  simp only [toil]
  rw [hattempt, howing]
  omega

theorem afterRead_rank {ctx : Ctx} {now : ℤ} {reply : Decoded} {reusable : Bool} :
    (afterRead ctx now reply reusable).rank = 6 := by
  unfold afterRead
  split <;> rfl

theorem DoMove.lowers {ctx : Ctx} {args : List Bytes} {tag : Tag} {verb : Verb}
    (hm : DoMove env sr ctx args tag s stage sr' stage' evs) (hs : s < sr.nextSocket) :
    Lowers c (.io s verb stage) sr c (.io s verb stage') sr' := by
  have hless : ∀ {stage stage' : Stage}, stage'.rank < stage.rank → sr'.owing = sr.owing →
      Lowers c (.io s verb stage) sr c (.io s verb stage') sr' :=
    fun hrank howing => .of_rank rfl (Nat.add_lt_add_left hrank _) howing
  -- What is delivered is owed, and the write was worth two.
  have hsent : ∀ {stage' : Stage}, stage'.rank < 8 →
      Lowers c (.io s verb .write) sr c (.io s verb stage') (sr.deliver s tag) := by
    intro stage' hrank
    have howing : (sr.deliver s tag).owing + (sr.sockets s).owed.length =
        sr.owing + ((sr.sockets s).owed ++ [tag]).length := Pool.load_setSocket hs
    rw [List.length_append, List.length_singleton] at howing
    left
    show 50 * (2 - c.attempt) + (verb.rank + stage'.rank) + (sr.deliver s tag).owing <
      50 * (2 - c.attempt) + (verb.rank + 9) + sr.owing
    omega
  cases hm with
  | stop | go | spent | spentTimeout | afford | noDeadline | unsent | readFailed =>
    exact hless (by simp only [Stage.rank]; omega) rfl
  | armed | leftover => exact hless (by simp only [Stage.rank]; omega) (Pool.load_same rfl)
  | sent | sentBlind => exact hsent (by simp only [Stage.rank]; omega)
  | refused => exact hless (by rw [afterRead_rank]; simp only [Stage.rank]; omega) rfl
  | replied =>
    exact hless (by rw [afterRead_rank]; simp only [Stage.rank]; omega) (Pool.load_same rfl)
  | @arrive n _ hpos hn =>
    have hwire : (sr.fill s n).onWire + (sr.sockets s).wire.length =
        sr.onWire + ((sr.sockets s).wire.drop n).length := Pool.load_setSocket hs
    have howing : (sr.fill s n).owing = sr.owing := Pool.load_same rfl
    rw [List.length_drop] at hwire
    refine .inr ⟨by rw [howing], ?_⟩
    simp only [unswept]
    omega

theorem afterDo_rank (cfg : Config) (s : ℕ) (reply : Decoded) (reusable : Bool) (verb : Verb) :
    (afterDo cfg s reply reusable verb).rank < verb.rank + 6 := by
  have hsecond : (secondVerb cfg).rank ≤ 10 := by
    unfold secondVerb
    split <;> decide
  cases verb with
  | command => exact Nat.lt_succ_self 5
  | auth =>
    cases reply with
    | ok values =>
      show (secondVerb cfg).rank + 12 < 20 + 6
      omega
    | error e => exact Nat.lt_of_sub_eq_succ rfl
  | select => cases reply <;> exact Nat.lt_of_sub_eq_succ rfl

theorem Move.lowers (hm : Move env sr c pc sr' c' pc' evs) (hattempt : c.attempt ≤ 1)
    (hheld : ∀ s ∈ pc.hands, s < sr.nextSocket) : Lowers c pc sr c' pc' sr' := by
  have hagain : ∀ {c' : Call} {pc : Pc}, c'.attempt = c.attempt + 1 → pc.rank = 1 →
      Lowers c pc sr c' .attempt sr := by
    intro c' pc hc' hrank
    left
    simp only [toil, hrank, hc']
    show 50 * (2 - (c.attempt + 1)) + 42 + sr.owing < 50 * (2 - c.attempt) + 1 + sr.owing
    omega
  cases hm with
  | bind =>
    exact .of_rank (bindCommandDeadline_keeps ..).2.1 (by simp only [Pc.rank]; omega) rfl
  | io hdo => exact hdo.lowers (hheld _ (List.mem_singleton_self _))
  | leave =>
    exact .of_rank rfl (afterDo_rank ..) (Pool.load_stopWatch fun _ => rfl)
  | connected =>
    refine .of_rank rfl ?_ (Pool.load_openConn rfl)
    have hfirst : (firstVerb env.cfg).rank ≤ 20 := by
      unfold firstVerb
      split
      · decide
      · split <;> decide
    show (firstVerb env.cfg).rank + 12 < 33
    omega
  | reuse => exact .of_rank rfl (by simp only [Pc.rank, Verb.rank, Stage.rank]; omega) rfl
  | swept =>
    have howing : ∀ s, (sr.closeConn s).owing = sr.owing := fun _ => Pool.load_same rfl
    have hwire : ∀ s, (sr.closeConn s).onWire = sr.onWire := fun _ => Pool.load_same rfl
    refine .inr ⟨by rw [howing]; rfl, ?_⟩
    rw [hwire]
    simp only [unswept, List.length_cons]
    omega
  | hangUp | close | noRoom =>
    exact .of_rank rfl (by simp only [Pc.rank]; omega) (Pool.load_same rfl)
  | @park s =>
    have howing : (sr.stamp s env.now).owing = sr.owing := Pool.load_same rfl
    exact .of_rank rfl (by simp only [Pc.rank]; omega) howing
  | refund | freeTurn =>
    exact .of_rank rfl (by simp only [Pc.rank]; omega) (Pool.load_freeInUseTurn _)
  | borrowAgain => exact hagain rfl rfl
  | runAgain => exact hagain (congrArg (· + 1) (c.noteDead_keeps _).1) rfl
  | runGaveUp => exact .of_rank (c.noteDead_keeps _).1 (by simp only [Pc.rank]; omega) rfl
  | _ => exact .of_rank rfl (by simp only [Pc.rank]; omega) rfl

/-! ## The world -/

/-- A step of a command or an answer of the peer. -/
def Action.works : Action → Bool
  | run _ _ | answer _ _ => true
  | _ => false

theorem World.busy_eq_zero {w : World}
    (h : ∀ p c pc, w.procs p = some (.exec c pc) → pc.live = false) : w.busy = 0 := by
  refine tally_eq_zero fun p _ => ?_
  unfold weight
  split
  next c pc hp =>
    rw [h p c pc hp]
    rfl
  · rfl

theorem World.next_mono {w w' : World} {a : Action} (hs : w.step a = some w') :
    w.next ≤ w'.next := by
  cases World.step_cases hs with
  | exec | close => exact Nat.le_succ _
  | _ => exact le_refl _

namespace Recovery

variable {first p : ℕ} {w w' : World}

theorem rank_run (h : Recovery first w) (hp : w.procs p = some (.exec c pc))
    (hm : Move (w.env p) w.pool c pc sr' c' pc' evs) :
    (w.moved p sr' (.exec c' pc') evs).rank < w.rank := by
  have hlive : pc.live = true := by
    cases pc with
    | done => cases hm
    | _ => rfl
  have hlt := h.turns.known.lt_next hp
  have hlowers := hm.lowers (h.commands p c pc hp hlive).2.attempt fun s hs =>
    h.fit.sockets.held p s (World.hands_of hp ▸ hs)
  have htoil : tally toil (update w.procs p (some (.exec c' pc'))) w.next +
      toil (w.procs p) = tally toil w.procs w.next + toil (some (.exec c' pc')) := tally_update hlt
  have hsweep : tally unswept (update w.procs p (some (.exec c' pc'))) w.next +
      unswept (w.procs p) = tally unswept w.procs w.next + unswept (some (.exec c' pc')) :=
    tally_update hlt
  rw [hp] at htoil hsweep
  refine Prod.Lex.toLex_lt_toLex.mpr ?_
  rcases hlowers with hless | ⟨heq, hless⟩
  · left
    show tally toil (update w.procs p _) w.next + sr'.owing <
      tally toil w.procs w.next + w.pool.owing
    omega
  · right
    show tally toil (update w.procs p _) w.next + sr'.owing =
        tally toil w.procs w.next + w.pool.owing ∧
      tally unswept (update w.procs p _) w.next + sr'.onWire <
        tally unswept w.procs w.next + w.pool.onWire
    omega

theorem rank_answer (h : Recovery first w) {t : ℕ} {r : Reply} {tag : Tag} {owed : List Tag}
    (howed : (w.pool.sockets t).owed = tag :: owed) :
    (w.answered t tag owed r).rank < w.rank := by
  have hlt := (h.tags.owed t tag (howed ▸ List.mem_cons_self)).2
  have hload : (w.answered t tag owed r).pool.owing + (w.pool.sockets t).owed.length =
      w.pool.owing + owed.length := Pool.load_setSocket hlt
  rw [howed, List.length_cons] at hload
  refine Prod.Lex.toLex_lt_toLex.mpr (.inl ?_)
  show tally toil w.procs w.next + (w.answered t tag owed r).pool.owing <
    tally toil w.procs w.next + w.pool.owing
  omega

theorem rank_lt (h : Recovery first w) {a : Action} (ha : Healthy w a) (hworks : a.works = true)
    (hs : w.step a = some w') : w'.rank < w.rank := by
  cases World.step_cases hs with
  | run hp hm => exact h.rank_run hp hm
  | runClose hp => exact (ha _ hp).elim
  | answer howed => exact h.rank_answer howed
  | endCtx hor => rcases hor with rfl | rfl <;> cases hworks
  | _ => cases hworks

end Recovery

/-! ## There is always something to do -/

theorem advance_goes (hread : ∀ s verb, pc ≠ .io s verb .read) (hwait : pc ≠ .waitTurn)
    (hlive : pc.live = true) :
    ∃ inp, pc.goesWell sr.sockets inp ∧ (advance env sr inp c pc).isSome = true := by
  have hfine : ∀ {s verb stage inp}, inp.ioError = none →
      (Pc.io s verb stage).goesWell sr.sockets inp := by
    intro s verb stage inp hnone e he
    rw [hnone] at he
    cases he
  cases pc with
  | start => exact ⟨.none, trivial, by simp only [advance]; split <;> rfl⟩
  | attempt =>
    refine ⟨.none, trivial, ?_⟩
    simp only [advance]
    split <;> split <;> rfl
  | backoff => exact ⟨.timer, trivial, by simp only [advance]; split <;> rfl⟩
  | borrow | borrowCtx | takeTurn | dial =>
    exact ⟨.none, trivial, by simp only [advance]; split <;> rfl⟩
  | waitTurn => exact absurd rfl hwait
  | takeIdle =>
    refine ⟨.none, trivial, ?_⟩
    simp only [advance, Pool.takeIdleConn]
    split
    · split <;> rfl
    · by_cases hc : sr.closed = true
      · rw [if_pos hc]
        rfl
      · rw [if_neg hc]
        rfl
  | sweep stale reused =>
    cases stale with
    | cons s stale => exact ⟨.none, trivial, rfl⟩
    | nil => cases reused <;> exact ⟨.none, trivial, rfl⟩
  | dialing => exact ⟨.connected, rfl, rfl⟩
  | io s verb stage =>
    cases stage with
    | enter =>
      refine ⟨.none, hfine rfl, ?_⟩
      cases hctx : contextStop c.ctx env.now <;> simp only [advance, doStep, hctx] <;> rfl
    | budget =>
      refine ⟨.none, hfine rfl, ?_⟩
      by_cases hb : commandBudgetLeft env c.ctx ≤ 0
      · cases hctx : contextStop c.ctx env.now <;>
          simp only [advance, doStep, if_pos hb, hctx] <;> rfl
      · simp only [advance, doStep, if_neg hb]
        rfl
    | arm =>
      refine ⟨.ok, hfine rfl, ?_⟩
      by_cases hbuf : (sr.sockets s).buffer = []
      · simp only [advance, doStep, if_pos hbuf]
        rfl
      · simp only [advance, doStep, if_neg hbuf]
        rfl
    | write => exact ⟨.ok, hfine rfl, rfl⟩
    | read => exact absurd rfl (hread s verb)
    | leave reply reusable => exact ⟨.none, hfine rfl, rfl⟩
  | hangUp | refund | closing | freeTurn => exact ⟨.none, trivial, rfl⟩
  | borrowFailed f =>
    cases f with
    | err e hs => exact ⟨.none, trivial, by simp only [advance]; split <;> rfl⟩
    | panicked => exact ⟨.none, trivial, rfl⟩
  | stopped => exact ⟨.none, trivial, by simp only [advance]; split <;> rfl⟩
  | release s ran reusable =>
    refine ⟨.none, trivial, ?_⟩
    cases reusable with
    | false => rfl
    | true =>
      simp only [advance, Pool.parkIdleConn]
      by_cases hfull : (sr.stamp s env.now).closed = true ∨
          env.cfg.maxIdleConns ≤ (sr.stamp s env.now).idleConns.length
      · rw [if_pos trivial, if_pos hfull]
        rfl
      · rw [if_pos trivial, if_neg hfull]
        rfl
  | ran ran =>
    cases ran with
    | panicked => exact ⟨.none, trivial, rfl⟩
    | returned reply =>
      cases reply with
      | ok values => exact ⟨.none, trivial, rfl⟩
      | error e => exact ⟨.none, trivial, by simp only [advance]; split <;> rfl⟩
  | done => cases hlive

theorem read_goes {verb : Verb} {tag : Tag}
    (hawait : Awaiting log tag (sr.sockets s)) (hwhole : Whole log tag (sr.sockets s)) :
    (∃ inp, (Pc.io s verb .read).goesWell sr.sockets inp ∧
        (advance env sr inp c (.io s verb .read)).isSome = true) ∨
      (sr.sockets s).owed = [tag] ∧ (sr.sockets s).ended = false := by
  cases hread : readReply (sr.sockets s).buffer with
  | fail | done =>
    refine .inl ⟨.none, fun _ he => (by cases he), ?_⟩
    simp only [advance, doStep, hread]
    rfl
  | more =>
    by_cases hended : (sr.sockets s).ended = true
    · refine .inl ⟨.readFailed .other, fun e he => ?_, by simp only [advance, doStep, hread]; rfl⟩
      cases he
      exact ⟨rfl, by rw [Socket.dead, hended, Bool.true_or]⟩
    · have halive := eq_false_of_ne_true hended
      rcases hawait with ⟨howed, _⟩ | ⟨howed, _⟩
      · exact .inr ⟨howed, halive⟩
      · obtain ⟨r, hwf, _, heq⟩ := hwhole halive howed
        have hwire : 0 < (sr.sockets s).wire.length := by
          refine List.length_pos_iff.mpr fun hnil => ?_
          rw [hnil, List.append_nil] at heq
          rw [heq] at hread
          have hframe := readReply_frames hwf []
          rw [List.append_nil, hread] at hframe
          rcases hframe with ⟨_, hfail⟩ | ⟨_, hdone, _⟩
          · cases hfail
          · cases hdone
        refine .inl ⟨.arrived (sr.sockets s).wire.length, fun _ he => (by cases he), ?_⟩
        simp only [advance, doStep, hread]
        rw [if_pos ⟨hwire, le_refl _⟩]
        rfl

namespace Recovery

variable {first p : ℕ} {w w' : World}

theorem step_of_isSome (hp : w.procs p = some (.exec c pc))
    (h : (advance (w.env p) w.pool inp c pc).isSome = true) :
    ∃ w', w.step (.run p inp) = some w' := by
  obtain ⟨⟨sr', c', pc', evs⟩, hadv⟩ := Option.isSome_iff_exists.mp h
  exact ⟨_, World.step_of_advance hp hadv⟩

theorem goes (h : Recovery first w) (hp : w.procs p = some (.exec c pc)) (hlive : pc.live = true) :
    ∃ a w', (Healthy w a ∧ a.works = true) ∧ w.step a = some w' := by
  obtain ⟨_, hcourse⟩ := h.commands p c pc hp hlive
  have hrun : ∀ {inp}, pc.goesWell w.pool.sockets inp →
      (advance (w.env p) w.pool inp c pc).isSome = true →
      ∃ a w', (Healthy w a ∧ a.works = true) ∧ w.step a = some w' := by
    intro inp hwell hsome
    obtain ⟨w', hs⟩ := step_of_isSome hp hsome
    refine ⟨.run p inp, w', ⟨fun proc hproc => ?_, rfl⟩, hs⟩
    cases hp.symm.trans hproc
    exact hwell
  by_cases hread : ∃ s verb, pc = .io s verb .read
  · obtain ⟨s, verb, rfl⟩ := hread
    rcases read_goes (h.replies.ready p _ hp) hcourse.place.2.2 with
      ⟨inp, hwell, hsome⟩ | ⟨howed, hended⟩
    · exact hrun hwell hsome
    · let ok := Reply.simple (ascii "OK")
      have hwf : ok.wellFormed = true := by decide +kernel
      have hfinal : ok.final = true := by decide +kernel
      refine ⟨.answer s ok, w.answered s ⟨p, c.attempt, verb⟩ [] ok, ⟨hfinal, rfl⟩, ?_⟩
      rw [World.step, World.runAnswer, howed]
      exact if_pos ⟨hended, hwf⟩
  · have hwait : pc ≠ .waitTurn := by
      rintro rfl
      exact hcourse.place.elim
    obtain ⟨inp, hwell, hsome⟩ :=
      advance_goes (fun s verb hpc => hread ⟨s, verb, hpc⟩) hwait hlive
    exact hrun hwell hsome

theorem inevitable (h : Recovery first w) (hfirst : first ≤ w.next) :
    Inevitably World.step (fun u a => Healthy u a ∧ a.works = true) (fun u => u.busy = 0) w := by
  have hgoes : ∀ u, Recovery first u ∧ first ≤ u.next → u.busy = 0 ∨
      ∃ a u', (Healthy u a ∧ a.works = true) ∧ u.step a = some u' := by
    intro u hu
    by_cases hidle : ∀ p c pc, u.procs p = some (.exec c pc) → pc.live = false
    · exact .inl (World.busy_eq_zero hidle)
    · simp only [not_forall] at hidle
      obtain ⟨p, c, pc, hp, hlive⟩ := hidle
      exact .inr (hu.1.goes hp (Bool.eq_true_of_not_eq_false hlive))
  refine inevitably_of_rank World.rank hgoes (fun u a u' hu ha hs => ?_) w ⟨h, hfirst⟩
  exact ⟨⟨hu.1.step hu.2 ha.1 hs, hu.2.trans (World.next_mono hs)⟩, hu.1.rank_lt ha.1 ha.2 hs⟩

theorem begin (hreplies : ReplyInv w) (htags : TagInv w) (hfit : FitInv w) (hturns : TurnInv w)
    (hopen : w.pool.closed = false) (hretries : 1 ≤ retryLimit w.cfg.maxRetries)
    (hidle : w.busy = 0) (hborn : ∀ p, w.procs p = none → ∀ ev ∈ w.log, ¬ ev.of p) :
    Recovery w.next w := by
  have hknown := hturns.known
  refine ⟨hreplies, htags, hfit, hturns, hopen, hretries, ?_, fun tag r hr hle => ?_,
    fun p c pc hp hlive => ?_, fun p c hle hp => ?_, fun p reply hle hr => ?_⟩
  · rw [hidle]
    exact Nat.zero_le _
  · exact absurd (htags.answered tag r hr) (not_lt.mpr hle)
  · have hone : weight Pc.live (w.procs p) ≤ w.busy := le_tally (hknown.lt_next hp)
    rw [hp, hidle, weight, hlive] at hone
    cases hone
  · exact absurd (hknown.lt_next hp) (not_lt.mpr hle)
  · exact absurd rfl (hborn p (hknown p hle) _ hr)

end Recovery

/-! ## The result -/

/-- From any state with no command under way and nothing closed, if the peer and
the callers are healthy from then on, every command is served, with one retry
at most, and all of them return. -/
theorem idle_vintage_recovers {cfg : Config} {w₀ w w' : World} {before acts : List Action}
    (hnew : new cfg = .ok w₀) (hretries : 1 ≤ retryLimit w₀.cfg.maxRetries)
    (hbefore : run World.step w₀ before = some w) (hopen : w.pool.closed = false)
    (hidle : w.busy = 0) (hhealthy : Along World.step Healthy w acts)
    (hrun : run World.step w acts = some w') :
    (∀ p reply, w.next ≤ p → .returned p reply ∈ w'.log →
      Served w'.log p reply ∧ reply ≠ .error .unreachable ∧ reply ≠ .error .poolWait) ∧
    (∀ p c pc, w.next ≤ p → w'.procs p = some (.exec c pc) →
      c.attempt ≤ 1 ∧ (pc = .done → ∃ reply, .returned p reply ∈ w'.log)) ∧
    Inevitably World.step (fun u a => Healthy u a ∧ a.works = true) (fun u => u.busy = 0) w' := by
  obtain ⟨hinit, _⟩ := new_ok hnew
  have hcfg := World.run_cfg hbefore
  rw [hinit] at hbefore
  have hborn : ∀ p, w.procs p = none → ∀ ev ∈ w.log, ¬ ev.of p := by
    have hstep : ∀ u a u', (∀ p, u.procs p = none → ∀ ev ∈ u.log, ¬ ev.of p) →
        World.step u a = some u' → ∀ p, u'.procs p = none → ∀ ev ∈ u'.log, ¬ ev.of p :=
      fun _ _ _ h hs => Keeper.unborn_step h hs
    exact run_inv hstep (fun _ _ _ hev => absurd hev List.not_mem_nil) hbefore
  have hbegin : Recovery w.next w :=
    .begin (run_inv (fun _ _ _ h hs => h.step hs) (.init _) hbefore)
      (run_inv (fun _ _ _ h hs => h.step hs) (.init _) hbefore)
      (run_inv (fun _ _ _ h hs => h.step hs) (.init _) hbefore)
      (run_inv (fun _ _ _ h hs => h.step hs) (.init _) hbefore) hopen (hcfg ▸ hretries) hidle
      hborn
  have hstep : ∀ u a u', Recovery w.next u ∧ w.next ≤ u.next → Healthy u a →
      World.step u a = some u' → Recovery w.next u' ∧ w.next ≤ u'.next :=
    fun u a u' hu ha hs => ⟨hu.1.step hu.2 ha hs, hu.2.trans (World.next_mono hs)⟩
  obtain ⟨hend, hnext⟩ := run_inv_along hstep hhealthy ⟨hbegin, le_refl _⟩ hrun
  refine ⟨fun p reply hp hr => ?_, fun p c pc hp hproc => ?_, hend.inevitable hnext⟩
  · have hserved := hend.returned p reply hp hr
    obtain ⟨_, _, _, ⟨r, _, heq⟩, _⟩ := id hserved
    refine ⟨hserved, fun herr => ?_, fun herr => ?_⟩
    · exact (Reply.result_ne (heq.symm.trans herr)).1 rfl
    · exact (Reply.result_ne (heq.symm.trans herr)).2.1 rfl
  · by_cases hdone : pc = .done
    · subst hdone
      obtain ⟨hattempt, hr⟩ := hend.finished p c hp hproc
      exact ⟨hattempt, fun _ => hr⟩
    · have hlive : pc.live = true := by
        cases pc with
        | done => exact absurd rfl hdone
        | _ => rfl
      exact ⟨(hend.commands p c pc hproc hlive).2.attempt, fun h => absurd h hdone⟩

def dialAndReturn (p s : ℕ) : List Action :=
  dialPastIdle p ++ [Action.run p .connected] ++ sendFor p ++ answerOk p s ++ quiet p 6

def loseAndReturn : List Action := loseParked 1 ++ dialAndReturn 1 1

def hasReturned (w : World) : Bool :=
  match w.procs 1 with
  | some (.exec _ .done) => true
  | _ => false

def comesBack (w : World) : Bool :=
  decide (w.pool.idleConns = [0] ∧ (w.pool.sockets 0).ended = true ∧ w.pool.closed = false ∧
    w.busy = 0 ∧ w.next = 1 ∧ Along World.step Healthy w loseAndReturn) &&
  (run World.step w loseAndReturn).any hasReturned

theorem idle_vintage_recovers_retry : ∃ w₀ w w' : World, new oneSocket = .ok w₀ ∧
    run World.step w₀ (dialAndPark 0 0 ++ [Action.cut 0 0]) = some w ∧
    w.pool.idleConns = [0] ∧ (w.pool.sockets 0).ended = true ∧
    run World.step w loseAndReturn = some w' ∧
    ∃ reply, .returned 1 reply ∈ w'.log ∧ Served w'.log 1 reply := by
  have hchecked : ∃ w₀, new oneSocket = .ok w₀ ∧ 1 ≤ retryLimit w₀.cfg.maxRetries ∧
      (run World.step w₀ (dialAndPark 0 0 ++ [Action.cut 0 0])).any comesBack = true :=
    ⟨_, rfl, by decide +kernel, by decide +kernel⟩
  obtain ⟨w₀, hnew, hretries, hchecked⟩ := hchecked
  obtain ⟨w, hbefore, hback⟩ := (Option.any_eq_true _ _).mp hchecked
  obtain ⟨hstart, hafter⟩ := Bool.and_eq_true_iff.mp hback
  obtain ⟨hidle, hended, hopen, hbusy, hnext, hhealthy⟩ := of_decide_eq_true hstart
  obtain ⟨w', hrun, hdone⟩ := (Option.any_eq_true _ _).mp hafter
  refine ⟨w₀, w, w', hnew, hbefore, hidle, hended, hrun, ?_⟩
  obtain ⟨hreturned, hfinished, _⟩ :=
    idle_vintage_recovers hnew hretries hbefore hopen hbusy hhealthy hrun
  unfold hasReturned at hdone
  split at hdone
  next c hproc =>
    obtain ⟨reply, hr⟩ := (hfinished 1 c .done hnext.le hproc).2 rfl
    exact ⟨reply, hr, (hreturned 1 reply hnext.le hr).1⟩
  · cases hdone

end MiddlewareUtils.SimpleRedis
