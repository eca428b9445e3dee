import MiddlewareUtils.Proofs.BufferedRefines
import Mathlib.Data.Prod.Lex

/-!
# A buffered call returns, with the answer of exact mode

That the answers agree says something about calls that return. This file
adds that they do. A Take or a Peek goes through three stretches: up to the
flush of its outage check, the flush, and what comes after it. Within a
stretch there are only so many pieces, in the flush a few for every job
left, so every step of the call lowers a rank: first by the stretch, then by
the pieces to come. And a step there always is: with one call under way the
mutex is free when the call waits for it, a piece finds its branch whatever
the map holds, and Redis answers.
-/

namespace MiddlewareUtils.WindowCounter

open Lib Function

/-! ## The rank of a call -/

namespace Todo

def rank : Todo → ℕ × ℕ
  | takeEnter .. | peekEnter .. => (3, 6)
  | takeApply .. | peekApply .. => (3, 5)
  | takePrev .. | peekPrev .. => (3, 4)
  | takePrevApply .. | peekPrevApply .. => (3, 3)
  | takeHit .. => (3, 2)
  | outage _ => (3, 1)
  | flushStart _ => (3, 0)
  | flushNext _ jobs => (2, 2 * jobs.length + 1)
  | evalApply _ _ rest _ => (2, 2 * rest.length + 2)
  | evict _ => (2, 0)
  | recheck .. => (1, 1)
  | probeApply .. => (1, 0)
  | _ => (0, 0)

end Todo

namespace Pc

def rank : Pc → ℕ ×ₗ ℕ
  | held t => toLex (t.rank.1, 3 * t.rank.2 + 1)
  | lock t => toLex (t.rank.1, 3 * t.rank.2 + 2)
  | getting g => toLex ((g.todo (.ok 0)).rank.1, 3 * (g.todo (.ok 0)).rank.2 + 3)
  | evaling _ _ rest => toLex (2, 3 * (2 * rest.length + 2) + 3)
  | _ => toLex (0, 0)

def isCall (pc : Pc) : Bool := pc.answer.isSome || pc.take.isSome || pc.peek.isSome

end Pc

section Rank

variable {n : ℕ} {me : Fin n} {l l' : Limiter} {inp : Input} {t : Todo} {next : Next}
  {evs : List (Event n)} {w w' : World n} {a : Action n} {p : ℕ} {i : Fin n} {pc old : Pc}

theorem rank_lt {x y u v : ℕ} (h : x < u ∨ x = u ∧ y < v) :
    (toLex (x, y) : ℕ ×ₗ ℕ) < toLex (u, v) :=
  Prod.Lex.toLex_lt_toLex.mpr h

theorem PieceMove.rank_lt (hm : PieceMove me l inp t l' next evs)
    (hcall : (Pc.held t).isCall = true) : next.pc.rank < (Pc.held t).rank := by
  cases hm with
  | wakeStays | wakeStarts | closeTwice | closeMark | rearmEnds | rearm | stopNone | stopMark
  | stopClear => cases hcall
  | @evict f =>
    obtain ⟨caller, nowUnix, firstErr⟩ := f
    cases caller with
    | probe => exact WindowCounter.rank_lt (.inl (Nat.lt_succ_self 1))
    | _ => cases hcall
  | _ =>
    refine WindowCounter.rank_lt ?_
    simp only [Todo.rank, GetFor.todo, List.length_cons, true_and]
    omega

theorem PcMoved.rank_lt (hm : PcMoved w w' p i a old pc) (hcall : old.isCall = true) :
    pc.rank < old.rank := by
  cases hm with
  | acquired => exact WindowCounter.rank_lt (.inr ⟨rfl, by omega⟩)
  | piece hpm => exact hpm.rank_lt hcall
  | @got g | @gotError g =>
    cases g <;> refine WindowCounter.rank_lt (.inr ⟨rfl, ?_⟩) <;> exact Nat.lt_succ_self _
  | evaled | evalError =>
    refine WindowCounter.rank_lt (.inr ⟨rfl, ?_⟩)
    simp only [Todo.rank]
    omega
  | _ => cases hcall

theorem PieceMove.isCall (hm : PieceMove me l inp t l' next evs)
    (hcall : (Pc.held t).isCall = true) (herr : t.errs = false) : next.pc.isCall = true := by
  cases hm with
  | takeFailed | takePrevFailed | peekFailed | peekPrevFailed => cases herr
  | @evict f =>
    obtain ⟨caller, nowUnix, firstErr⟩ := f
    cases caller with
    | probe => rfl
    | _ => cases hcall
  | flushStart | flushLast | flushSend | evalFailed | evalAcked => exact hcall
  | wakeStays | wakeStarts | closeTwice | closeMark | rearmEnds | rearm | stopNone | stopMark
  | stopClear => cases hcall
  | _ => rfl

theorem PcMoved.isCall (hm : PcMoved w w' p i a old pc) (hcall : old.isCall = true)
    (herr : old.errs = false) : pc.isCall = true := by
  cases hm with
  | acquired => exact hcall
  | piece hpm => exact hpm.isCall hcall herr
  | @got g | @gotError g => cases g <;> rfl
  | evaled | evalError => exact hcall
  | _ => cases hcall

end Rank

/-! ## There is always a step -/

section Enabled

variable {n : ℕ} {w w' : World n} {a : Action n} {p : ℕ} {i : Fin n} {pc : Pc}

theorem piece_enabled (me : Fin n) (l : Limiter) (t : Todo) (now : ℕ) :
    ∃ inp : Input, inp.now = now ∧ (piece me l inp t).isSome = true := by
  cases t with
  | flushStart caller =>
    refine ⟨⟨now, l.pending, none⟩, rfl, ?_⟩
    rw [piece, if_pos (List.isPerm_iff.mpr (List.Perm.refl _))]
    rfl
  | recheck ans err =>
    cases err with
    | some e => exact ⟨⟨now, [], none⟩, rfl, rfl⟩
    | none =>
      -- the probe takes any window the map holds
      cases hmap : l.mapped with
      | nil =>
        refine ⟨⟨now, [], none⟩, rfl, ?_⟩
        simp only [piece, hmap]
        repeat' split
        all_goals first | rfl | contradiction
      | cons j rest =>
        have hj : j ∈ l.mapped := by rw [hmap]; exact List.mem_cons_self
        have hwin := of_decide_eq_true (List.mem_filter.mp hj).2
        refine ⟨⟨now, [], some (l.states j).key⟩, rfl, ?_⟩
        simp only [piece]
        repeat' split
        all_goals first | rfl | (next hnone => rw [hwin] at hnone; exact absurd rfl hnone)
  | takeApply sl limit reply | takePrevApply sl limit cur reply | peekApply sl limit reply
  | peekPrevApply sl limit current reply | evalApply f job rest reply | probeApply ans reply =>
    cases reply <;> exact ⟨⟨now, [], none⟩, rfl, rfl⟩
  | flushNext f jobs => cases jobs <;> exact ⟨⟨now, [], none⟩, rfl, rfl⟩
  | _ =>
    refine ⟨⟨now, [], none⟩, rfl, ?_⟩
    simp only [piece]
    repeat' split
    all_goals rfl

def Action.actor : Action n → Option ℕ
  | .run p _ | .get p _ | .eval p _ => some p
  | _ => none

theorem Moved.own (hm : Moved w a w') (ha : a.actor = some p)
    (hp : w.procs p = some ⟨i, pc⟩) :
    ∃ pc', w'.procs p = some ⟨i, pc'⟩ ∧ PcMoved w w' p i a pc pc' := by
  cases hm with
  | takeRefused | took | peekRefused | peeked | slept | woken | closing | fired | expired =>
    cases ha
  | acquired hp' hmu =>
    cases ha
    rw [hp] at hp'
    cases hp'
    exact ⟨_, update_self .., .acquired hmu⟩
  | piece hp' hpm =>
    cases ha
    rw [hp] at hp'
    cases hp'
    exact ⟨_, update_self .., .piece hpm (update_self ..)⟩
  | evaled hp' hr =>
    cases ha
    rw [hp] at hp'
    cases hp'
    exact ⟨_, update_self .., .evaled hr⟩
  | tickDone hp' | stopInTime hp' | stopLate hp' | stopDone hp' | stopWaited hp' | gotError hp'
  | got hp' | evalError hp' =>
    cases ha
    rw [hp] at hp'
    cases hp'
    exact ⟨_, update_self .., by constructor⟩

def Held (w : World n) : Prop :=
  ∀ i q, (w.limiters i).mu = some q → ∃ t, w.procs q = some ⟨i, .held t⟩

namespace Held

theorem init {redis : Store} {limiters : Fin n → Limiter}
    (hfree : ∀ i, (limiters i).mu = none) : Held (World.init redis limiters) := by
  intro i q hq
  have hq : (limiters i).mu = some q := hq
  rw [hfree i] at hq
  cases hq

theorem keep (h : Held w) (hmu : ∀ i, (w'.limiters i).mu = (w.limiters i).mu)
    (hprocs : ∀ q i t, w.procs q = some ⟨i, .held t⟩ → w'.procs q = some ⟨i, .held t⟩) :
    Held w' := by
  intro i q hq
  rw [hmu] at hq
  obtain ⟨t, ht⟩ := h i q hq
  exact ⟨t, hprocs q i t ht⟩

theorem other {w₁ : World n} {x : Option (Proc n)} {q : ℕ} {i' : Fin n} {t : Todo}
    (hprocs : w₁.procs = w.procs) (hp : w.procs p = x)
    (hx : ∀ y ∈ x, y.pc.isHeld = false) (hq : w.procs q = some ⟨i', .held t⟩) :
    (w₁.setProc p i pc).procs q = some ⟨i', .held t⟩ := by
  have hne : q ≠ p := by
    rintro rfl
    have := hx _ (hp.symm.trans hq)
    cases this
  rw [World.procs_setProc, update_of_ne hne, hprocs, hq]

theorem step (h : Held w) (hlock : Locked w) (hunborn : w.procs w.next = none)
    (hm : Moved w a w') : Held w' := by
  have hnew : ∀ y ∈ (none : Option (Proc n)), y.pc.isHeld = false := fun y hy => (nomatch hy)
  cases hm with
  | takeRefused | peekRefused | expired => exact h.keep (fun _ => rfl) fun _ _ _ hq => hq
  | took | peeked | slept | woken | closing =>
    exact h.keep (fun _ => rfl) fun _ _ _ hq => other rfl hunborn hnew hq
  | fired =>
    exact h.keep (Locked.setLimiter_mu rfl) fun _ _ _ hq => other rfl hunborn hnew hq
  | @acquired p inp i t hp hmu =>
    intro i' q hq
    by_cases hi : i' = i
    · subst hi
      obtain rfl : p = q := Option.some.inj (Locked.mu_setLimiter_self.symm.trans hq)
      exact ⟨t, update_self ..⟩
    · have hq : (w.limiters i').mu = some q := (Locked.mu_setLimiter_of_ne hi).symm.trans hq
      obtain ⟨t', ht'⟩ := h i' q hq
      refine ⟨t', other rfl hp ?_ ht'⟩
      rintro y ⟨⟩
      rfl
  | @piece p inp i t l next evs hp hpm =>
    intro i' q hq
    by_cases hi : i' = i
    · subst hi
      have hq : (next.unlock l).mu = some q := Locked.mu_setLimiter_self.symm.trans hq
      cases next with
      | release pc => cases hq
      | hold t' =>
        have hq : l.mu = some q := hq
        rw [hpm.control.1, hlock p i' t hp] at hq
        cases hq
        exact ⟨t', update_self ..⟩
    · have hq : (w.limiters i').mu = some q := (Locked.mu_setLimiter_of_ne hi).symm.trans hq
      obtain ⟨t', ht'⟩ := h i' q hq
      have hne : q ≠ p := by
        rintro rfl
        rw [hp] at ht'
        cases ht'
        exact hi rfl
      exact ⟨t', (update_of_ne hne ..).trans ht'⟩
  | tickDone hp | stopDone hp | stopInTime hp =>
    refine h.keep (Locked.setLimiter_mu rfl) fun _ _ _ hq => other rfl hp ?_ hq
    rintro y ⟨⟩
    rfl
  | stopLate hp | stopWaited hp | gotError hp | got hp | evalError hp | evaled hp =>
    refine h.keep (fun _ => rfl) fun _ _ _ hq => other rfl hp ?_ hq
    rintro y ⟨⟩
    rfl

end Held

theorem step_enabled (hp : w.procs p = some ⟨i, pc⟩) (hcall : pc.isCall = true)
    (hret : pc.returned = false) (hmu : ∀ t, pc = .lock t → (w.limiters i).mu = none)
    (now : ℕ) : ∃ a, (w.step a).isSome = true ∧ a.actor = some p ∧ a.redisUp = true ∧
      ∀ r ∈ a.reading, r = now := by
  cases pc with
  | lock t =>
    refine ⟨.run p ⟨now, [], none⟩, ?_, rfl, rfl, by rintro r ⟨⟩; rfl⟩
    show (w.runProc p _).isSome = true
    rw [World.runProc, hp]
    dsimp only
    rw [if_pos (hmu t rfl)]
    rfl
  | held t =>
    obtain ⟨inp, hnow, hsome⟩ := piece_enabled i (w.limiters i) t now
    obtain ⟨r, hpiece⟩ := Option.isSome_iff_exists.mp hsome
    refine ⟨.run p inp, ?_, rfl, rfl, by rintro r ⟨⟩; exact hnow⟩
    show (w.runProc p _).isSome = true
    rw [World.runProc, hp]
    dsimp only
    rw [hpiece]
    rfl
  | getting g =>
    refine ⟨.get p none, ?_, rfl, rfl, fun r hr => (nomatch hr)⟩
    show (w.runGet p none).isSome = true
    rw [World.runGet, hp]
    rfl
  | evaling f job rest =>
    refine ⟨.eval p none, ?_, rfl, rfl, fun r hr => (nomatch hr)⟩
    show (w.runEval p none).isSome = true
    rw [World.runEval, hp]
    rfl
  | answered | failed | finished => cases hret
  | tickDone | stopTimer | stopDone | stopWait => cases hcall

end Enabled

/-! ## To the end of a call -/

structure Runs (windowSec : ℤ) (s : Pair) : Prop extends Refines windowSec s where
  locked : Locked s.buffered
  held : Held s.buffered
  clock_nonneg : 0 ≤ s.buffered.clock
  called : ∀ p ans, s.answers p = some ans →
    ∃ pc, s.buffered.procs p = some ⟨0, pc⟩ ∧ pc.isCall = true

namespace Runs

variable {s s' : Pair} {key : String} {window windowSec : ℤ} {x : PairAction} {p : ℕ} {pc : Pc}

theorem step_called {a : Action 1} {w' : World 1} {ans : Answer} (h : Runs windowSec s)
    (hm : Moved s.buffered a w') (hans : (s.follow a).answers p = some ans) :
    ∃ pc, w'.procs p = some ⟨0, pc⟩ ∧ pc.isCall = true := by
  have hold : s.answers p = some ans → ∃ pc, w'.procs p = some ⟨0, pc⟩ ∧ pc.isCall = true := by
    intro hans
    obtain ⟨pc, hp, hcall⟩ := h.called p ans hans
    rcases hm.proc_from hp (ne_of_lt (h.born hp)) with hstay | ⟨pc', hp', hmove⟩
    · exact ⟨pc, hstay, hcall⟩
    · exact ⟨pc', hp', hmove.isCall hcall (h.healthy.calls p pc (Nat.zero_le p) hp)⟩
  by_cases hp : p = s.buffered.next
  · subst hp
    unfold Pair.follow Pair.call at hans
    split at hans
    · split at hans
      · exact hold hans
      next i _ _ _ _ _ sl hsl =>
        obtain rfl : i = 0 := Subsingleton.elim _ _
        exact ⟨_, hm.took_proc hsl, rfl⟩
    · split at hans
      · exact hold hans
      next i _ _ _ _ _ sl hsl =>
        obtain rfl : i = 0 := Subsingleton.elim _ _
        exact ⟨_, hm.peeked_proc hsl, rfl⟩
    · exact hold hans
  · rw [Pair.follow_answers hp] at hans
    exact hold hans

theorem step (h : Runs windowSec s) (hsec : windowSec = window / second)
    (hseq : s.Sequential key window x) (hstep : s.step windowSec x = some s') :
    Runs windowSec s' := by
  have hrefines := h.toRefines.step hsec hseq hstep
  cases x with
  | lose k now =>
    unfold Pair.step at hstep
    dsimp only at hstep
    split at hstep
    · cases hstep
      exact ⟨hrefines, h.locked.quiet (fun _ => rfl) fun _ _ _ hq => hq, h.held,
        le_trans h.clock_nonneg (le_max_left _ _), h.called⟩
    · cases hstep
  | act a =>
    obtain ⟨w, hw, rfl⟩ := Option.map_eq_some_iff.mp hstep
    have hm := Moved.of_step hw
    refine ⟨hrefines, h.locked.step hm, h.held.step h.locked (h.ledger.unborn _ (le_refl _)) hm,
      ?_, ?_⟩
    · rcases hm.clock with hc | ⟨now, _, hc⟩
      · exact hc ▸ h.clock_nonneg
      · exact hc ▸ le_trans h.clock_nonneg (le_max_left _ _)
    · exact fun p ans => h.step_called hm

theorem inTime (h : Runs windowSec s) : s.InTime (s.buffered.clock.toNat * second) := by
  have hunix : unix (s.buffered.clock.toNat * second) = s.buffered.clock := by
    rw [unix, Nat.mul_div_cancel _ (by decide), Int.toNat_of_nonneg h.clock_nonneg]
  unfold Pair.InTime
  rw [hunix]
  refine ⟨le_refl _, ?_⟩
  rintro q _ ⟨i, qc⟩ hq
  obtain rfl : i = 0 := Subsingleton.elim _ _
  constructor
  · intro y hy
    have hw := h.windows q qc y hq (.inl hy)
    exact hw.ttl ▸ hw.previous
  · intro y hy
    have hw := h.windows q qc y hq (.inr hy)
    exact hw.ttl ▸ hw.previous

theorem goes_on (key : String) (h : Runs windowSec s) (hsec : windowSec = window / second)
    (hp : s.buffered.procs p = some ⟨0, pc⟩) (hcall : pc.isCall = true)
    (hret : pc.returned = false) :
    ∃ x s' pc', s.Sequential key window x ∧ s.step windowSec x = some s' ∧ Runs windowSec s' ∧
      s'.buffered.procs p = some ⟨0, pc'⟩ ∧ pc'.isCall = true ∧ pc'.rank < pc.rank ∧
      s'.answers p = s.answers p := by
  have hmu : ∀ t, pc = .lock t → (s.buffered.limiters 0).mu = none := by
    rintro t rfl
    cases hmu : (s.buffered.limiters 0).mu with
    | none => rfl
    | some q =>
      -- whoever has it would be another call under way
      obtain ⟨t', hq⟩ := h.held 0 q hmu
      obtain rfl := h.alone _ _ _ _ hp hq rfl rfl
      rw [hp] at hq
      cases hq
  obtain ⟨a, hsome, hactor, hup, hread⟩ :=
    step_enabled hp hcall hret hmu (s.buffered.clock.toNat * second)
  obtain ⟨w, hw⟩ := Option.isSome_iff_exists.mp hsome
  have hseq : s.Sequential key window (.act a) := by
    refine ⟨?_, hup, fun r hr => hread r hr ▸ h.inTime⟩
    cases a with
    | run | get | eval => trivial
    | _ => cases hactor
  have hstep : s.step windowSec (.act a) = some { s.follow a with buffered := w } := by
    show (s.buffered.step a).map _ = _
    rw [hw]
    rfl
  obtain ⟨pc', hp', hmove⟩ := (Moved.of_step hw).own hactor hp
  refine ⟨.act a, _, pc', hseq, hstep, h.step hsec hseq hstep, hp',
    hmove.isCall hcall (h.healthy.calls p pc (Nat.zero_le p) hp), hmove.rank_lt hcall, ?_⟩
  exact Pair.follow_answers (ne_of_lt (h.born hp))

theorem returns {ans : Answer} (h : Runs windowSec s) (hsec : windowSec = window / second)
    (hans : s.answers p = some ans) :
    ∃ more s', Along (Pair.step windowSec) (Pair.Sequential key window) s more ∧
      run (Pair.step windowSec) s more = some s' ∧
      s'.buffered.procs p = some ⟨0, .answered ans none⟩ := by
  have hstep : ∀ s, (Runs windowSec s ∧ s.answers p = some ans ∧
        ∃ pc, s.buffered.procs p = some ⟨0, pc⟩ ∧ pc.isCall = true) →
      s.buffered.procs p = some ⟨0, .answered ans none⟩ ∨
        ∃ x s', s.Sequential key window x ∧ s.step windowSec x = some s' ∧
          (Runs windowSec s' ∧ s'.answers p = some ans ∧
            ∃ pc, s'.buffered.procs p = some ⟨0, pc⟩ ∧ pc.isCall = true) ∧
          ((s'.buffered.procs p).map (·.pc.rank)).getD (toLex (0, 0)) <
            ((s.buffered.procs p).map (·.pc.rank)).getD (toLex (0, 0)) := by
    rintro s ⟨h, hans, pc, hp, hcall⟩
    cases hret : pc.returned with
    | false =>
      right
      obtain ⟨x, s', pc', hseq, hstep, h', hp', hcall', hlt, hans'⟩ :=
        h.goes_on key hsec hp hcall hret
      refine ⟨x, s', hseq, hstep, ⟨h', hans'.trans hans, pc', hp', hcall'⟩, ?_⟩
      rw [hp, hp']
      exact hlt
    | true =>
      left
      have herr := h.healthy.calls p pc (Nat.zero_le p) hp
      have hagree := h.calls p pc hp
      cases pc with
      | answered ans' err =>
        have heq := hagree.decided ans' rfl
        rw [hans] at heq
        cases heq
        cases err with
        | none => exact hp
        | some e => cases herr
      | failed | finished => cases hcall
      | _ => cases hret
  obtain ⟨more, s', hal, hrun, _, hgoal⟩ := reaches_of_rank _ hstep s ⟨h, hans, h.called p ans hans⟩
  exact ⟨more, s', hal, hrun, hgoal⟩

theorem init {limiter : Limiter} (hnew : ∃ rate, 0 < rate ∧ Limiter.new rate = some limiter) :
    Runs windowSec (Pair.init limiter) := by
  refine ⟨.init hnew, Locked.init, Held.init fun _ => ?_, le_refl _,
    fun p ans hans => (nomatch hans)⟩
  obtain ⟨rate, _, hrate⟩ := hnew
  exact (Limiter.new_silent hrate).1

end Runs

/-- For every run of one call at a time on one opaque key and one window
length, with ticks, Sleep and Wake anywhere between the calls: every Take and
Peek of the buffered limiter that has returned has the answer the exact
limiter gave to the same call, and a nil error; none has failed; and every
one that has begun can be run on to its end, where it returns that answer. -/
theorem buffered_refines_exact (limiter : Limiter)
    (hnew : ∃ rate, 0 < rate ∧ Limiter.new rate = some limiter) (key : String) (window : ℤ)
    (acts : List PairAction) (s : Pair)
    (hrun : run (Pair.step (window / second)) (Pair.init limiter) acts = some s)
    (hseq : Along (Pair.step (window / second)) (Pair.Sequential key window)
      (Pair.init limiter) acts) :
    (∀ p ans err, s.buffered.procs p = some ⟨0, .answered ans err⟩ →
      err = none ∧ s.answers p = some ans) ∧
    (∀ p err, s.buffered.procs p ≠ some ⟨0, .failed err⟩) ∧
    ∀ p ans, s.answers p = some ans →
      ∃ more s', Along (Pair.step (window / second)) (Pair.Sequential key window) s more ∧
        run (Pair.step (window / second)) s more = some s' ∧
        s'.buffered.procs p = some ⟨0, .answered ans none⟩ := by
  have h : Runs (window / second) s :=
    run_inv_along (fun _ _ _ h hseq hstep => Runs.step h rfl hseq hstep) hseq (.init hnew) hrun
  have herr : ∀ p pc, s.buffered.procs p = some ⟨0, pc⟩ → pc.errs = false :=
    fun p pc hp => h.healthy.calls p pc (Nat.zero_le p) hp
  refine ⟨?_, ?_, fun p ans => h.returns rfl⟩
  · intro p ans err hp
    refine ⟨?_, (h.calls p _ hp).decided ans rfl⟩
    exact Option.isNone_iff_eq_none.mp (Option.isSome_eq_false_iff.mp (herr p _ hp))
  · intro p err hp
    cases herr p _ hp

/-- A Take and the tick that flushes it, and a Take of the next window. -/
def twoWindows : List PairAction :=
  let acts : List (Action 1) :=
    takeAlone sole 0 ++ flushAlone sole 0 1 ++ [Action.take sole "k" 1 1000000000 1000000000] ++
      piecesAt 2 2 1000000000 ++ [Action.get 2 none] ++ piecesAt 2 5 1000000000
  acts.map .act

theorem buffered_refines_exact_twoWindows :
    ∃ s ans, run (Pair.step (1000000000 / second)) (Pair.init everySecond) twoWindows = some s ∧
      s.buffered.procs 2 = some ⟨0, .answered ans none⟩ ∧ ans.allowed = false ∧
      s.answers 2 = some ans := by
  refine ⟨_, _, rfl, rfl, by decide +kernel, ?_⟩
  exact ((buffered_refines_exact everySecond
    ⟨1000000000, by decide, (Option.some_get _).symm⟩ "k" 1000000000 twoWindows _ rfl
    (by decide +kernel)).1 2 _ _ rfl).2

end MiddlewareUtils.WindowCounter
