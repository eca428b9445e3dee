import MiddlewareUtils.Proofs.BufferedLedger
import MiddlewareUtils.WindowCounter.FlushChain
import MiddlewareUtils.WindowCounter.Moves

/-!
# One flush chain at a time

`FlushChain.lean` counts the chains of an abstract timer. Here the buffered
machine is shown to be one: every limiter, read through `Closing.chain`, makes
a `Chain.Step` or none whenever the machine moves, as long as no Sleep or Close
of that limiter enters `stopFlushAndWait` while another is in it
(`stopsAlone`). The count then holds in every such run.

Without the condition it does not. The second Sleep of `twoSleeps` finds the
timer field empty, takes that for a limiter with no timer and resets
`stopping`; the Wake after it arms a timer beside the tick the first Sleep
still waits for.

Who set `closed` is not in the limiter, so the machine is watched.
-/

namespace MiddlewareUtils.WindowCounter

open Lib Function

/-! ## The phase of a program counter -/

def FlushCaller.phase : FlushCaller → Phase
  | tick => .tick
  | sleep | close => .flushing
  | probe _ => .idle

def Todo.phase : Todo → Phase
  | flushStart caller => caller.phase
  | flushNext f _ | evalApply f _ _ _ | evict f => f.caller.phase
  | rearm => .tick
  | stopMark => .flushing
  | stopClear => .clear
  | _ => .idle

def Pc.phase : Pc → Phase
  | lock t | held t => t.phase
  | evaling f _ _ => f.caller.phase
  | tickDone => .tick
  | stopTimer t => .timer t
  | stopDone => .done
  | stopWait => .wait
  | _ => .idle

def phaseOf {n : ℕ} (i : Fin n) : Option (Proc n) → Phase
  | some ⟨j, pc⟩ => if j = i then pc.phase else .idle
  | none => .idle

/-! ## The watched machine -/

/-- The machine with the Close that set `closed`, per limiter. -/
structure Closing (n : ℕ) where
  world : World n
  /-- The Close that set `closed`. -/
  closer : Fin n → Option ℕ

def Limiter.chain (l : Limiter) (phases : ℕ → Phase) (next : ℕ) (closer : Option ℕ) : Chain where
  closed := l.closed
  stopping := l.stopping
  flushTimer := l.flushTimer
  timers := l.timers
  nextTimer := l.nextTimer
  flushBusy := l.flushBusy
  phases := phases
  next := next
  closer := closer

namespace Closing

variable {n : ℕ}

def init (redis : Store) (limiters : Fin n → Limiter) : Closing n :=
  ⟨World.init redis limiters, fun _ => none⟩

def note (s : Closing n) : Action n → Fin n → Option ℕ
  | .run p _ =>
    match s.world.procs p with
    | some ⟨i, .held .closeMark⟩ =>
      if (s.world.limiters i).closed then s.closer else update s.closer i (some p)
    | _ => s.closer
  | _ => s.closer

def step (s : Closing n) (a : Action n) : Option (Closing n) :=
  (s.world.step a).map fun w => ⟨w, s.note a⟩

/-- No Sleep or Close of `i` looks at the timer field while another is in the stop. -/
def stopsAlone (i : Fin n) (s : Closing n) : Action n → Bool
  | .run p _ =>
    match s.world.procs p with
    | some ⟨j, .held .stopMark⟩ => j ≠ i || !(s.world.limiters i).stopping
    | _ => true
  | _ => true

def chain (s : Closing n) (i : Fin n) : Chain :=
  (s.world.limiters i).chain (phaseOf i ∘ s.world.procs) s.world.next (s.closer i)

end Closing

/-! ## Pieces that leave the timer alone -/

def Todo.controls : Todo → Bool
  | wake | closeMark | rearm | stopMark | stopClear => true
  | _ => false

section

variable {n : ℕ} {me : Fin n} {l l' : Limiter} {inp : Input} {t : Todo} {next : Next}
  {evs : List (Event n)}

theorem Limiter.raise_chain {j : Ptr} {e : ℤ} : (l.raise j e).chain = l.chain := by
  unfold Limiter.raise
  split <;> rfl

theorem Limiter.applyGet_chain {k : WindowKey} {known e : ℤ} :
    (l.applyGet k known e).1.chain = l.chain := by
  unfold Limiter.applyGet
  split
  · rfl
  · dsimp only
    split <;> exact Limiter.raise_chain

theorem Limiter.nack_chain {k : WindowKey} : (l.nack k).chain = l.chain := by
  unfold Limiter.nack
  split <;> rfl

theorem Limiter.ack_chain {k : WindowKey} {v delta : ℤ} {now : ℕ} :
    (l.ack k v delta now).chain = l.chain := by
  unfold Limiter.ack
  split <;> rfl

theorem Limiter.storeErr_chain {err : Option RedisError} {now : ℕ} :
    (l.storeErr err now).chain = l.chain := by
  cases err <;> rfl

theorem Next.unlock_chain : (next.unlock l).chain = l.chain := by cases next <;> rfl

theorem getFor_phase (g : GetFor) (reply : Reply) : (Pc.lock (g.todo reply)).phase = .idle := by
  cases g <;> rfl

theorem afterFlush_phase (f : Flush) : (afterFlush f).pc.phase = f.caller.phase := by
  unfold afterFlush
  cases f.caller <;> rfl

theorem PieceMove.chain_same (hm : PieceMove me l inp t l' next evs) (ht : t.controls = false) :
    l'.chain = l.chain ∧ next.pc.phase = t.phase := by
  cases hm with
  | takeRefresh | takeBuffered | peekBuffered => exact ⟨Limiter.raise_chain, rfl⟩
  | takeSeed | takePrevSeed | peekSeed => exact ⟨Limiter.applyGet_chain, rfl⟩
  | peekPrevSeed hr => exact ⟨hr ▸ Limiter.applyGet_chain, rfl⟩
  | evalFailed => exact ⟨Limiter.nack_chain, rfl⟩
  | evalAcked => exact ⟨Limiter.ack_chain, rfl⟩
  | evict => exact ⟨Limiter.storeErr_chain, afterFlush_phase _⟩
  | probeFailed => exact ⟨Limiter.storeErr_chain, rfl⟩
  | wakeStays | wakeStarts | closeTwice | closeMark | rearmEnds | rearm | stopNone | stopMark
  | stopClear => exact nomatch ht
  | _ => exact ⟨rfl, rfl⟩

end

/-! ## A step of the machine is a step of the chain -/

theorem Chain.goto_same {s : Chain} {p : ℕ} {ph : Phase} (h : s.phases p = ph) :
    s.goto p ph = s := by
  unfold Chain.goto
  rw [← h, update_eq_self]

namespace Closing

variable {n : ℕ} {s s' : Closing n} {w : World n} {closer : Fin n → Option ℕ} {a : Action n}
  {i j : Fin n} {p : ℕ} {pc pc' : Pc} {l : Limiter} {inp : Input}

theorem chain_setProc : chain ⟨w.setProc p j pc, closer⟩ i =
    (chain ⟨w, closer⟩ i).goto p (phaseOf i (some ⟨j, pc⟩)) := by
  have hphases : phaseOf i ∘ (w.setProc p j pc).procs =
      update (phaseOf i ∘ w.procs) p (phaseOf i (some ⟨j, pc⟩)) :=
    comp_update ..
  show Limiter.chain _ (phaseOf i ∘ (w.setProc p j pc).procs) _ _ = _
  rw [hphases]
  rfl

theorem chain_spawn : chain ⟨w.spawn j pc, closer⟩ i =
    (chain ⟨w, closer⟩ i).spawn (phaseOf i (some ⟨j, pc⟩)) := by
  have hproc : chain ⟨w.setProc w.next j pc, closer⟩ i = _ := chain_setProc
  exact congrArg (fun c : Chain => { c with next := w.next + 1 }) hproc

theorem chain_setLimiter : chain ⟨w.setLimiter i l, closer⟩ i =
    l.chain (phaseOf i ∘ w.procs) w.next (closer i) := by
  show Limiter.chain (update w.limiters i l i) _ _ _ = _
  rw [update_self]
  rfl

theorem chain_setLimiter_of_ne (hj : i ≠ j) :
    chain ⟨w.setLimiter j l, closer⟩ i = chain ⟨w, closer⟩ i := by
  show Limiter.chain (update w.limiters j l i) _ _ _ = _
  rw [update_of_ne hj]
  rfl

theorem phaseOf_self : phaseOf i (some ⟨i, pc⟩) = pc.phase := if_pos rfl

theorem phaseOf_of_ne (hj : i ≠ j) : phaseOf i (some ⟨j, pc⟩) = .idle := if_neg hj.symm

theorem phases_of (closer : Fin n → Option ℕ) (hp : w.procs p = some ⟨i, pc⟩) :
    (chain ⟨w, closer⟩ i).phases p = pc.phase :=
  (congrArg (phaseOf i) hp).trans phaseOf_self

theorem chain_moves (hp : s.world.procs p = some ⟨j, pc⟩)
    (hcloser : closer i = s.closer i)
    (hother : i ≠ j → chain ⟨w, s.closer⟩ i = s.chain i)
    (hmine : j = i → (s.chain i).phases p = pc.phase →
      (chain ⟨w, s.closer⟩ i).goto p pc'.phase = s.chain i ∨
        (s.chain i).Step ((chain ⟨w, s.closer⟩ i).goto p pc'.phase)) :
    chain ⟨w.setProc p j pc', closer⟩ i = s.chain i ∨
      (s.chain i).Step (chain ⟨w.setProc p j pc', closer⟩ i) := by
  have hsame : chain ⟨w.setProc p j pc', closer⟩ i = chain ⟨w.setProc p j pc', s.closer⟩ i :=
    congrArg (Limiter.chain _ _ _) hcloser
  rw [hsame, chain_setProc]
  by_cases hj : i = j
  · subst hj
    rw [phaseOf_self]
    exact hmine rfl (phases_of s.closer hp)
  · rw [hother hj, phaseOf_of_ne hj]
    exact .inl (Chain.goto_same ((congrArg (phaseOf i) hp).trans (phaseOf_of_ne hj)))

theorem note_closer (hp : s.world.procs p = some ⟨j, pc⟩) (hpc : j = i → pc ≠ .held .closeMark) :
    s.note (.run p inp) i = s.closer i := by
  simp only [note, hp]
  cases pc with
  | held t =>
    cases t with
    | closeMark =>
      dsimp only
      split
      · rfl
      · exact update_of_ne (fun hi => hpc hi.symm rfl) ..
    | _ => rfl
  | _ => rfl

theorem stopping_of_alone (hp : s.world.procs p = some ⟨i, .held .stopMark⟩)
    (ha : s.stopsAlone i (.run p inp) = true) : (s.world.limiters i).stopping = false := by
  simpa [stopsAlone, hp] using ha

theorem chain_piece {t : Todo} {l' : Limiter} {next : Next} {evs : List (Event n)}
    (hknown : s.world.Known) (hp : s.world.procs p = some ⟨i, .held t⟩)
    (hm : PieceMove i (s.world.limiters i) inp t l' next evs)
    (ha : s.stopsAlone i (.run p inp) = true) :
    chain ⟨s.world.afterPiece p i inp.now l' next evs, s.note (.run p inp)⟩ i = s.chain i ∨
      (s.chain i).Step
        (chain ⟨s.world.afterPiece p i inp.now l' next evs, s.note (.run p inp)⟩ i) := by
  have hafter : chain ⟨s.world.afterPiece p i inp.now l' next evs, s.note (.run p inp)⟩ i =
      (l'.chain (phaseOf i ∘ s.world.procs) s.world.next (s.note (.run p inp) i)).goto p
        next.pc.phase := by
    rw [World.afterPiece, chain_setProc, chain_setLimiter, Next.unlock_chain, phaseOf_self]
    rfl
  have hph : (s.chain i).phases p = t.phase := phases_of s.closer hp
  have hnote : t ≠ .closeMark → s.note (.run p inp) i = s.closer i :=
    fun ht => note_closer hp fun _ h => ht (Pc.held.inj h)
  rw [hafter]
  by_cases ht : t.controls = false
  · obtain ⟨hl, hpc⟩ := hm.chain_same ht
    rw [hl, hpc, hnote (by rintro rfl; exact nomatch ht)]
    exact .inl (Chain.goto_same hph)
  · cases hm with
    | wakeStays | rearmEnds =>
      rw [hnote nofun]
      exact .inl (Chain.goto_same hph)
    | wakeStarts hclosed hstop hnone =>
      have hl : (s.world.limiters i).startFlush.chain (phaseOf i ∘ s.world.procs) s.world.next
          (s.closer i) = { (s.chain i).arm with flushBusy := (s.chain i).flushBusy + 1 } := by
        simp only [Limiter.startFlush, hnone]
        rfl
      have hgoto := congrArg (fun c : Chain => c.goto p .idle) hl
      rw [hnote nofun]
      refine .inr (Eq.mpr (congrArg _ (hgoto.trans (Chain.goto_same hph))) ?_)
      exact .wake hclosed hstop hnone
    | closeTwice hclosed =>
      have hsame : s.note (.run p inp) i = s.closer i := by
        simp only [note, hp, hclosed, if_true]
      rw [hsame]
      exact .inl (Chain.goto_same hph)
    | closeMark hopen =>
      have hmine : s.note (.run p inp) i = some p := by
        simp only [note, hp, hopen, Bool.false_eq_true, if_false, update_self]
      rw [hmine]
      exact .inr (.close (hknown.lt_next hp) hph hopen)
    | rearm hclosed hstop =>
      rw [hnote nofun]
      exact .inr (.rearm hph hclosed hstop)
    | stopNone hnone =>
      have hstop := stopping_of_alone hp ha
      have hl : ({ s.world.limiters i with stopping := false } : Limiter).chain
          (phaseOf i ∘ s.world.procs) s.world.next (s.closer i) = s.chain i := by
        unfold chain Limiter.chain
        rw [hstop]
      rw [hnote nofun, hl]
      exact .inr (.stopNone hph hstop hnone)
    | stopMark htimer =>
      rw [hnote nofun]
      exact .inr (.detach hph (stopping_of_alone hp ha) htimer)
    | stopClear =>
      rw [hnote nofun]
      exact .inr (.clear hph)
    | _ => exact absurd rfl ht

theorem phaseOf_begin {start : Pc} (hstart : start.phase = .idle ∨ start.phase = .flushing)
    (i j : Fin n) :
    phaseOf i (some ⟨j, start⟩) = .idle ∨ phaseOf i (some ⟨j, start⟩) = .flushing := by
  by_cases hj : i = j
  · subst hj
    rw [phaseOf_self]
    exact hstart
  · exact .inl (phaseOf_of_ne hj)

theorem chain_step (hknown : s.world.Known) (hs : s.step a = some s')
    (ha : s.stopsAlone i a = true) :
    s'.chain i = s.chain i ∨ (s.chain i).Step (s'.chain i) := by
  obtain ⟨w', hw, rfl⟩ := Option.map_eq_some_iff.mp hs
  have hbegin : ∀ {w₁ : World n} {j : Fin n} {start : Pc}, chain ⟨w₁, s.closer⟩ i = s.chain i →
      (phaseOf i (some ⟨j, start⟩) = .idle ∨ phaseOf i (some ⟨j, start⟩) = .flushing) →
      (s.chain i).Step (chain ⟨w₁.spawn j start, s.closer⟩ i) := by
    intro w₁ j start hsame hstart
    rw [chain_spawn, hsame]
    exact .begin hstart
  cases Moved.of_step hw with
  | takeRefused | peekRefused | expired => exact .inl rfl
  | @took j key limit window now sl =>
    have hsame : chain ⟨(s.world.reading now).ask sl, s.closer⟩ i = s.chain i := rfl
    exact .inr (hbegin hsame (phaseOf_begin (Or.inl rfl) i j))
  | @peeked j key limit window now sl =>
    have hsame : chain ⟨(s.world.reading now).ask sl, s.closer⟩ i = s.chain i := rfl
    exact .inr (hbegin hsame (phaseOf_begin (Or.inl rfl) i j))
  | slept => exact .inr (hbegin rfl (phaseOf_begin (Or.inr rfl) i _))
  | woken | closing => exact .inr (hbegin rfl (phaseOf_begin (Or.inl rfl) i _))
  | @fired j timer harmed =>
    by_cases hj : i = j
    · subst hj
      have hset : chain ⟨s.world.setTimer i timer .fired, s.closer⟩ i =
          (s.chain i).setTimer timer .fired := chain_setLimiter
      refine .inr (Eq.mpr (congrArg _ (chain_spawn.trans ?_)) (.fire harmed))
      exact congrArg₂ Chain.spawn hset phaseOf_self
    · exact .inr (hbegin (chain_setLimiter_of_ne hj) (Or.inl (phaseOf_of_ne hj)))
  | @acquired p inp j t hp hmu =>
    refine chain_moves hp (note_closer hp fun _ => nofun) chain_setLimiter_of_ne ?_
    rintro rfl hph
    rw [chain_setLimiter]
    exact .inl (Chain.goto_same hph)
  | @piece p inp j t l next evs hp hm =>
    by_cases hj : i = j
    · subst hj
      exact chain_piece hknown hp hm ha
    · exact chain_moves hp (note_closer hp fun h => absurd h.symm hj) chain_setLimiter_of_ne
        fun h => absurd h.symm hj
  | @tickDone p inp j hp =>
    refine chain_moves hp (note_closer hp fun _ => nofun) chain_setLimiter_of_ne ?_
    rintro rfl hph
    rw [chain_setLimiter]
    exact .inr (.tickDone hph)
  | @stopInTime p inp j timer hp harmed =>
    refine chain_moves hp (note_closer hp fun _ => nofun) chain_setLimiter_of_ne ?_
    rintro rfl hph
    rw [World.setTimer, chain_setLimiter]
    exact .inr (.stopInTime hph harmed)
  | @stopLate p inp j timer hp hlate =>
    refine chain_moves hp (note_closer hp fun _ => nofun) (fun _ => rfl) ?_
    rintro rfl hph
    exact .inr (.stopLate hph hlate)
  | @stopDone p inp j hp =>
    refine chain_moves hp (note_closer hp fun _ => nofun) chain_setLimiter_of_ne ?_
    rintro rfl hph
    rw [chain_setLimiter]
    exact .inr (.stopDone hph)
  | @stopWaited p inp j hp hbusy =>
    refine chain_moves hp (note_closer hp fun _ => nofun) (fun _ => rfl) ?_
    rintro rfl hph
    exact .inr (.waited hph hbusy)
  | @gotError p j g e hp =>
    refine chain_moves hp rfl (fun _ => rfl) fun _ hph => Or.inl (Chain.goto_same ?_)
    exact hph.trans (getFor_phase g _).symm
  | @got p j g hp =>
    refine chain_moves hp rfl (fun _ => rfl) fun _ hph => Or.inl (Chain.goto_same ?_)
    exact hph.trans (getFor_phase g _).symm
  | @evalError p j f job rest e hp =>
    exact chain_moves hp rfl (fun _ => rfl) fun _ hph => Or.inl (Chain.goto_same hph)
  | @evaled p j f job rest r hp hr =>
    exact chain_moves hp rfl (fun _ => rfl) fun _ hph => Or.inl (Chain.goto_same hph)

end Closing

/-! ## Every run -/

def Chain.unstarted : Chain :=
  ⟨false, false, none, fun _ => .stopped, 0, 0, fun _ => .idle, 0, none⟩

theorem Chain.Inv.unstarted : Chain.unstarted.Inv :=
  ⟨nofun, fun _ hp => absurd rfl hp, rfl, Nat.zero_le _, rfl, nofun, nofun,
    fun ht => absurd ht (Nat.lt_irrefl 0), nofun, nofun⟩

theorem Limiter.new_chain {l : Limiter} {rate : ℤ} (h : Limiter.new rate = some l) :
    (l.chain (fun _ => .idle) 0 none).Inv := by
  unfold Limiter.new at h
  split at h
  · cases h
  · dsimp only at h
    generalize (if 0 < rate ∧ rate < minSyncRate then minSyncRate else rate) = r at h
    cases h
    split
    · exact Chain.Inv.unstarted.wake rfl rfl rfl
    · exact Chain.Inv.unstarted

def Limiter.armedTimers (l : Limiter) : ℕ := tally TimerStatus.live l.timers l.nextTimer

def World.ticks {n : ℕ} (w : World n) (i : Fin n) : ℕ :=
  tally (fun proc => (phaseOf i proc).ticks) w.procs w.next

def World.unaccounted {n : ℕ} (w : World n) (i : Fin n) : ℕ :=
  tally (fun proc => (phaseOf i proc).stopped) w.procs w.next

/-- Armed timers and running ticks of limiter `i`. -/
def World.chains {n : ℕ} (w : World n) (i : Fin n) : ℕ :=
  (w.limiters i).armedTimers + w.ticks i

/-- What a limiter's timers, ticks and `flushBusy` come to. -/
structure SingleChain {n : ℕ} (s : Closing n) (i : Fin n) : Prop where
  one : s.world.chains i ≤ 1
  busy : (s.world.limiters i).flushBusy = s.world.chains i + s.world.unaccounted i
  /-- `chains` counts every armed timer. -/
  made : ∀ t, (s.world.limiters i).timers t = .armed → t < (s.world.limiters i).nextTimer
  wake : ∀ p inp w', s.world.procs p = some ⟨i, .held .wake⟩ →
    s.world.step (.run p inp) = some w' →
    (w'.limiters i).timers ≠ (s.world.limiters i).timers →
    ∀ q pc, s.world.procs q = some ⟨i, pc⟩ → pc.phase.detached = 0
  closed : ∀ p, s.closer i = some p → s.world.procs p = some ⟨i, .finished⟩ →
    ∀ t, (s.world.limiters i).timers t ≠ .armed

theorem Phase.detached_le (ph : Phase) : ph.detached ≤ 1 := by
  cases ph with
  | idle | tick | flushing => exact Nat.zero_le _
  | timer | done | wait | clear => exact Nat.le_refl _

theorem Moved.wake_arms {n : ℕ} {w w' : World n} {i : Fin n} {p : ℕ} {inp : Input}
    (hm : Moved w (.run p inp) w') (hp : w.procs p = some ⟨i, .held .wake⟩)
    (harmed : (w'.limiters i).timers ≠ (w.limiters i).timers) :
    (w.limiters i).stopping = false := by
  cases hm with
  | piece hp' hpm =>
    cases hp.symm.trans hp'
    cases hpm with
    | wakeStays =>
      refine absurd ?_ harmed
      show (update w.limiters i _ i).timers = _
      rw [update_self]
      rfl
    | wakeStarts _ hstop => exact hstop
  | acquired hp' | tickDone hp' | stopInTime hp' | stopLate hp' | stopDone hp' | stopWaited hp' =>
    exact nomatch hp.symm.trans hp'

/-- If no Sleep or Close looks at the timer while another stops it, at most one
timer or tick of a limiter is live, and `flushBusy` counts it. -/
theorem single_chain {n : ℕ} {redis : Store} {limiters : Fin n → Limiter} {i : Fin n} {rate : ℤ}
    (hnew : Limiter.new rate = some (limiters i)) {acts : List (Action n)} {s : Closing n}
    (halone : Along Closing.step (fun s a => s.stopsAlone i a = true) (.init redis limiters) acts)
    (hrun : run Closing.step (.init redis limiters) acts = some s) : SingleChain s i := by
  have hinv : s.world.Known ∧ (s.chain i).Inv := by
    have hstep : ∀ (s : Closing n) a s', s.world.Known ∧ (s.chain i).Inv →
        s.stopsAlone i a = true → s.step a = some s' → s'.world.Known ∧ (s'.chain i).Inv := by
      rintro s a s' ⟨hknown, hchain⟩ ha hs
      obtain ⟨w', hw, hs'⟩ := Option.map_eq_some_iff.mp hs
      have hknown' : s'.world.Known := hs' ▸ hknown.step (Moved.of_step hw)
      rcases Closing.chain_step hknown hs ha with hsame | hmove
      · exact ⟨hknown', hsame ▸ hchain⟩
      · exact ⟨hknown', hchain.step hmove⟩
    exact run_inv_along hstep halone ⟨fun _ _ => rfl, Limiter.new_chain hnew⟩ hrun
  obtain ⟨_, h⟩ := hinv
  refine ⟨h.one, h.busy, h.made, ?_, ?_⟩
  · intro p inp w' hp hw harmed q pc hq
    have hstop := (Moved.of_step hw).wake_arms hp harmed
    by_contra hne
    have hle := Phase.detached_le pc.phase
    have hph := Closing.phases_of s.closer hq
    have hdetached : ((s.chain i).phases q).detached = 1 := by
      rw [hph]
      omega
    exact nomatch hstop.symm.trans (h.stopping_of_detached hdetached)
  · intro p hp hfin t ht
    obtain ⟨_, hflush | ⟨_, hmine⟩⟩ := h.last p hp
    · exact nomatch (Closing.phases_of s.closer hfin).symm.trans hflush
    · exact nomatch (Closing.phases_of s.closer hfin).symm.trans (hmine t ht)

/-- A tick, a Sleep, a Wake and a Close, one after the other. -/
def stopByStop : List (Action 1) :=
  .fire sole 0 :: pieces 0 6 ++ .sleep sole :: pieces 1 11 ++ .wake sole :: pieces 2 2 ++
    .close sole :: pieces 3 13

theorem single_chain_stopByStop :
    ∃ s, Along Closing.step (fun s a => s.stopsAlone 0 a = true)
      (.init Store.empty fun _ => everySecond) stopByStop ∧
      run Closing.step (.init Store.empty fun _ => everySecond) stopByStop = some s ∧
      s.closer 0 = some 3 ∧ SingleChain s 0 :=
  ⟨_, by decide +kernel, rfl, rfl,
    @single_chain 1 Store.empty (fun _ => everySecond) 0 1000000000 (Option.some_get _).symm
      stopByStop _ (by decide +kernel) rfl⟩

/-- The first Sleep waits for the running tick when the second one finds no timer. -/
def twoSleeps : List (Action 1) :=
  .fire sole 0 :: .sleep sole :: pieces 1 6 ++ .sleep sole :: pieces 2 6 ++
    .wake sole :: pieces 3 2

/-- Wake arms a timer while the first tick is still live. -/
theorem two_sleeps_two_chains :
    ∃ s, run Closing.step (.init Store.empty fun _ => everySecond) twoSleeps = some s ∧
      s.world.procs 1 = some ⟨0, .stopTimer 0⟩ ∧ s.world.chains 0 = 2 ∧ ¬ SingleChain s 0 := by
  refine ⟨_, rfl, rfl, by decide +kernel, fun h => absurd h.one ?_⟩
  decide +kernel

end MiddlewareUtils.WindowCounter
