import MiddlewareUtils.Proofs.BufferedLedger
import MiddlewareUtils.WindowCounter.Moves

/-!
# When a buffered limiter forgets an outage

`lastFlushErr` is stored on two paths, a flush that failed and a probe GET
that failed, and cleared on one: an EVAL that was acknowledged. A flush with
nothing pending sends no EVAL. So a tick clears the error of an earlier
outage if it had a delta to flush, and otherwise leaves it, whatever Redis
has been doing since. With Peeks only there is never a delta, and the error
of one failed probe is returned for good: `failedProbe` is that run.

The positive half follows an error through the machine. It can be stored
only by a call that carries it, as a failed reply in hand or as the
`firstErr` of a flush in progress (`faulty`). When a tick has begun and no
other call of the limiter is in the middle of Redis, nobody carries one;
while Redis answers, nobody comes to carry one; and the tick's first
acknowledgement clears what was stored before. Its buffer is still in the
map then, because the snapshot is owned by the tick.
-/

namespace MiddlewareUtils.WindowCounter

open Lib

/-! ## Who carries an error -/

namespace Todo

def calling : Todo → Bool
  | takeApply .. | takePrevApply .. | peekApply .. | peekPrevApply .. | probeApply ..
  | flushNext .. | evalApply .. | evict _ => true
  | _ => false

def faulty : Todo → Bool
  | evalApply _ _ _ (.error _) | probeApply _ (.error _) => true
  | evalApply f _ _ (.ok _) | flushNext f _ | evict f => f.firstErr.isSome
  | _ => false

def errs : Todo → Bool
  | takeApply _ _ (.error _) | takePrevApply _ _ _ (.error _) | peekApply _ _ (.error _)
  | peekPrevApply _ _ _ (.error _) => true
  | recheck _ err => err.isSome
  | t => t.faulty

end Todo

namespace Pc

def calling : Pc → Bool
  | getting _ | evaling .. => true
  | lock t | held t => t.calling
  | _ => false

def faulty : Pc → Bool
  | lock t | held t => t.faulty
  | evaling f _ _ => f.firstErr.isSome
  | _ => false

/-- An error is in hand or was returned. -/
def errs : Pc → Bool
  | lock t | held t => t.errs
  | evaling f _ _ => f.firstErr.isSome
  | answered _ err => err.isSome
  | failed _ => true
  | _ => false

theorem not_faulty_of_not_calling {pc : Pc} (h : pc.calling = false) : pc.faulty = false := by
  cases pc with
  | lock t | held t => cases t <;> first | rfl | cases h
  | evaling => cases h
  | _ => rfl

end Pc

theorem Begins.clean {n : ℕ} {i : Fin n} {a : Action n} {pc : Pc} (h : Begins i a pc) :
    pc.faulty = false ∧ pc.errs = false := by
  cases h <;> exact ⟨rfl, rfl⟩

section Pieces

variable {n : ℕ} {me : Fin n} {l l' : Limiter} {inp : Input} {t : Todo} {next : Next}
  {evs : List (Event n)}

theorem lastFlushErr_applyGet {k : WindowKey} {v e : ℤ} {now : ℕ} :
    ((l.contacted now).applyGet k v e).1.lastFlushErr = l.lastFlushErr :=
  SameOutage.applyGet.lastFlushErr

theorem lastFlushErr_ack {k : WindowKey} {v d : ℤ} {now : ℕ} :
    (l.ack k v d now).lastFlushErr = l.lastFlushErr ∨
      (l.ack k v d now).lastFlushErr = none := by
  unfold Limiter.ack
  split
  · exact .inl rfl
  · exact .inr rfl

theorem PieceMove.not_faulty (hm : PieceMove me l inp t l' next evs) (ht : t.faulty = false) :
    next.pc.faulty = false ∧
      (l'.lastFlushErr = l.lastFlushErr ∨ l'.lastFlushErr = none) := by
  cases hm with
  | takeRefresh | takeBuffered | peekBuffered =>
    exact ⟨rfl, .inl SameOutage.raise.lastFlushErr⟩
  | takeSeed | takePrevSeed | peekSeed => exact ⟨rfl, .inl lastFlushErr_applyGet⟩
  | peekPrevSeed hr => exact ⟨rfl, .inl (by rw [hr]; exact lastFlushErr_applyGet)⟩
  | flushLast | flushSend => exact ⟨ht, .inl rfl⟩
  | evalFailed => cases ht
  | evalAcked => exact ⟨ht, lastFlushErr_ack⟩
  | @evict f =>
    have hnone : f.firstErr = none :=
      Option.isNone_iff_eq_none.mp (Option.isSome_eq_false_iff.mp ht)
    rw [hnone]
    refine ⟨?_, .inl rfl⟩
    unfold afterFlush
    split <;> rfl
  | probeFailed => cases ht
  | wakeStarts => exact ⟨rfl, .inl SameOutage.startFlush.lastFlushErr⟩
  | _ => exact ⟨rfl, .inl rfl⟩

theorem PieceMove.not_errs (hm : PieceMove me l inp t l' next evs) (ht : t.errs = false)
    (hl : l.lastFlushErr = none) : next.pc.errs = false := by
  cases hm with
  | takeFailed | takePrevFailed | peekFailed | peekPrevFailed | evalFailed | probeFailed =>
    cases ht
  | outageKept herr | recheckKept herr => rw [hl] at herr; cases herr
  | flushLast | flushSend | evalAcked => exact ht
  | @evict f =>
    have h : f.firstErr.isSome = false := ht
    unfold afterFlush
    split <;> first | rfl | exact h
  | recheckFailed => cases ht
  | _ => rfl

end Pieces

/-! ## Steps while Redis answers -/

section Steps

variable {n : ℕ} {w w' : World n} {a : Action n} {i : Fin n} {q : ℕ} {old pc : Pc}

theorem faulty_todo_ok {g : GetFor} {v : ℤ} : (g.todo (.ok v)).faulty = false := by
  cases g <;> rfl

theorem errs_todo_ok {g : GetFor} {v : ℤ} : (g.todo (.ok v)).errs = false := by
  cases g <;> rfl

theorem PcMoved.not_faulty (hm : PcMoved w w' q i a old pc) (hup : a.redisUp = true)
    (hold : old.faulty = false) : pc.faulty = false := by
  cases hm with
  | acquired => exact hold
  | piece hpm _ => exact (hpm.not_faulty hold).1
  | gotError | evalError => cases hup
  | got => exact faulty_todo_ok
  | evaled => exact hold
  | _ => rfl

theorem PcMoved.not_errs (hm : PcMoved w w' q i a old pc) (hup : a.redisUp = true)
    (hold : old.errs = false) (hl : (w.limiters i).lastFlushErr = none) : pc.errs = false := by
  cases hm with
  | acquired => exact hold
  | piece hpm _ => exact hpm.not_errs hold hl
  | gotError | evalError => cases hup
  | got => exact errs_todo_ok
  | evaled => exact hold
  | _ => rfl

def Unfaulted (i : Fin n) (w : World n) : Prop :=
  ∀ q pc, w.procs q = some ⟨i, pc⟩ → pc.faulty = false

theorem Unfaulted.step (h : Unfaulted i w) (hm : Moved w a w') (hup : a.redisUp = true) :
    Unfaulted i w' := by
  intro q pc hq
  rcases hm.proc hq with hold | ⟨_, hbegins⟩ | ⟨old, hold, hmove⟩
  · exact h q pc hold
  · exact hbegins.clean.1
  · exact hmove.not_faulty hup (h q old hold)

theorem Unfaulted.lastFlushErr (h : Unfaulted i w) (hm : Moved w a w') :
    (w'.limiters i).lastFlushErr = (w.limiters i).lastFlushErr ∨
      (w'.limiters i).lastFlushErr = none := by
  rcases hm.limiter i with hsame | ⟨p, inp, t, l, next, evs, _, hp, hpm, _, hl⟩
  · exact .inl hsame.lastFlushErr
  · have herr : (next.unlock l).lastFlushErr = l.lastFlushErr := by cases next <;> rfl
    rw [hl, herr]
    exact (hpm.not_faulty (h p _ hp)).2

/-! ## The tick -/

/-- The tick of process `p` has an acknowledgement to come. -/
inductive Awaits (l : Limiter) : Pc → Prop where
  | start (h : l.pending ≠ []) : Awaits l (.held (.flushStart .tick))
  | next {f job rest} : Awaits l (.held (.flushNext f (job :: rest)))
  | evaling {f job rest} : Awaits l (.evaling f job rest)
  | replied {f job rest v} : Awaits l (.lock (.evalApply f job rest (.ok v)))
  | apply {f job rest v} : Awaits l (.held (.evalApply f job rest (.ok v)))

theorem Awaits.piece {redis : Store} {p : ℕ} {inp : Input} {t : Todo} {l : Limiter}
    {next : Next} {evs : List (Event n)} (hled : LedgerInv redis w)
    (hp : w.procs p = some ⟨i, .held t⟩) (h : Awaits (w.limiters i) (.held t))
    (hm : PieceMove i (w.limiters i) inp t l next evs) :
    l.lastFlushErr = none ∨ Awaits l next.pc := by
  cases h with
  | start hpend =>
    cases hm with
    | flushStart horder =>
      have hne : inp.order ≠ [] := by
        intro hnil
        rw [hnil, List.isPerm_iff] at horder
        exact hpend (List.nil_perm.mp horder)
      obtain ⟨j, rest, hcons⟩ := List.exists_cons_of_ne_nil hne
      rw [hcons]
      exact .inr .next
  | next =>
    cases hm with
    | flushSend => exact .inr .evaling
  | apply =>
    cases hm with
    | evalAcked =>
      obtain ⟨j, hj, -⟩ := hled.owner hp
      left
      rw [Limiter.ack, hj]

theorem Awaits.frame {l l' : Limiter} (h : Awaits l pc)
    (hpend : pc = .held (.flushStart .tick) → l'.pending = l.pending) : Awaits l' pc := by
  cases h with
  | start hne => exact .start (by rw [hpend rfl]; exact hne)
  | next => exact .next
  | evaling => exact .evaling
  | replied => exact .replied
  | apply => exact .apply

theorem pending_untouched {l l' : Limiter} (h : Untouched l l') : l'.pending = l.pending := by
  unfold Limiter.pending Limiter.mapped
  rw [h.windows, h.states, h.nextPtr]

def Recovering (i : Fin n) (p : ℕ) (w : World n) : Prop :=
  (w.limiters i).lastFlushErr = none ∨
    ∃ pc, w.procs p = some ⟨i, pc⟩ ∧ Awaits (w.limiters i) pc

theorem Recovering.step {redis : Store} {p : ℕ} (h : Recovering i p w)
    (hled : LedgerInv redis w) (hlock : Locked w) (hclean : Unfaulted i w)
    (hm : Moved w a w') (hup : a.redisUp = true) : Recovering i p w' := by
  rcases h with hnone | ⟨pc, hp, haw⟩
  · left
    rcases hclean.lastFlushErr hm with hsame | hnone'
    · rw [hsame, hnone]
    · exact hnone'
  · have hborn : p ≠ w.next := by
      rintro rfl
      rw [hled.unborn w.next (le_refl _)] at hp
      cases hp
    rcases hm.proc_from hp hborn with hstay | ⟨pc', hp', hmove⟩
    · refine .inr ⟨pc, hstay, haw.frame ?_⟩
      rintro rfl
      rcases hm.limiter i with hsame | ⟨q, inp, t, l, next, evs, _, hq, hpm, rfl, _⟩
      · exact pending_untouched hsame
      · -- the piece would be the tick's own, and it does not stay where it is
        obtain rfl := hlock.unique hp hq
        rw [hp] at hq
        cases hq
        cases hpm with
        | flushStart =>
          rw [World.afterPiece, World.procs_setProc, Function.update_self] at hstay
          cases hstay
    · cases hmove with
      | acquired =>
        cases haw with
        | replied => exact .inr ⟨_, hp', .apply⟩
      | @piece inp t l next evs hpm hl =>
        rcases haw.piece hled hp hpm with hnone | haw'
        · left
          rw [hl]
          cases next <;> exact hnone
        · refine .inr ⟨_, hp', haw'.frame fun _ => ?_⟩
          rw [hl]
          cases next <;> rfl
      | evalError => cases hup
      | evaled => exact .inr ⟨_, hp', .replied⟩
      | _ => cases haw

structure Healthy (i : Fin n) (base : ℕ) (w : World n) : Prop where
  unfaulted : Unfaulted i w
  stored : (w.limiters i).lastFlushErr = none
  calls : ∀ q pc, base ≤ q → w.procs q = some ⟨i, pc⟩ → pc.errs = false

theorem Healthy.step {base : ℕ} (h : Healthy i base w) (hm : Moved w a w')
    (hup : a.redisUp = true) : Healthy i base w' := by
  refine ⟨h.unfaulted.step hm hup, ?_, ?_⟩
  · rcases h.unfaulted.lastFlushErr hm with hsame | hnone
    · rw [hsame, h.stored]
    · exact hnone
  · intro q pc hq hp
    rcases hm.proc hp with hold | ⟨_, hbegins⟩ | ⟨old, hold, hmove⟩
    · exact h.calls q pc hq hold
    · exact hbegins.clean.2
    · exact hmove.not_errs hup (h.calls q old hq hold) h.stored

end Steps

/-! ## A tick after an outage -/

/-- No other process of limiter `i` is in the middle of a Redis call. -/
def World.AloneAtRedis {n : ℕ} (w : World n) (i : Fin n) (p : ℕ) : Prop :=
  ∀ q < w.next, q ≠ p → ∀ x ∈ w.procs q, x.limiter = i → x.pc.calling = false

instance {n : ℕ} (w : World n) (i : Fin n) (p : ℕ) : Decidable (w.AloneAtRedis i p) :=
  inferInstanceAs (Decidable (∀ q < w.next, q ≠ p → ∀ x ∈ w.procs q, x.limiter = i →
    x.pc.calling = false))

/-- In every run: a tick that begins with something to flush, or with no
error stored, with no other Redis call of the limiter in flight, and that is
answered by Redis throughout, leaves no error stored; and while Redis goes
on answering none is stored again and no call begun since meets one. -/
theorem tick_with_delta_recovers {n : ℕ} (redis : Store) (limiters : Fin n → Limiter)
    (hnew : ∀ i, ∃ rate, 0 < rate ∧ Limiter.new rate = some (limiters i))
    (acts : List (Action n)) (w : World n)
    (hrun : run World.step (World.init redis limiters) acts = some w) (i : Fin n) (p : ℕ)
    (htick : w.procs p = some ⟨i, .held (.flushStart .tick)⟩) (halone : w.AloneAtRedis i p)
    (hdue : (w.limiters i).pending ≠ [] ∨ (w.limiters i).lastFlushErr = none)
    (during : List (Action n)) (w₁ : World n) (hup : ∀ a ∈ during, a.redisUp = true)
    (hrun₁ : run World.step w during = some w₁) (hdone : w₁.procs p = some ⟨i, .lock .rearm⟩) :
    (w₁.limiters i).lastFlushErr = none ∧
      ∀ after w₂, (∀ a ∈ after, a.redisUp = true) → run World.step w₁ after = some w₂ →
        (w₂.limiters i).lastFlushErr = none ∧
          ∀ q pc, w₁.next ≤ q → w₂.procs q = some ⟨i, pc⟩ → pc.errs = false := by
  have hled : LedgerInv redis w :=
    run_inv (fun _ _ _ hi hs => hi.step hs) (ledgerInv_init hnew) hrun
  have hlock : Locked w :=
    run_inv (fun _ _ _ hi hs => Locked.step hi (.of_step hs)) Locked.init hrun
  have hclean : Unfaulted i w := by
    intro q pc hq
    by_cases hqp : q = p
    · subst hqp
      rw [htick] at hq
      cases hq
      rfl
    · refine Pc.not_faulty_of_not_calling (halone q ?_ hqp ⟨i, pc⟩ hq rfl)
      by_contra hborn
      rw [hled.unborn q (not_lt.mp hborn)] at hq
      cases hq
  have hrec : Recovering i p w := by
    rcases hdue with hpend | hnone
    · exact .inr ⟨_, htick, .start hpend⟩
    · exact .inl hnone
  have hstep : ∀ s a s', LedgerInv redis s ∧ Locked s ∧ Unfaulted i s ∧ Recovering i p s →
      a.redisUp = true → World.step s a = some s' →
      LedgerInv redis s' ∧ Locked s' ∧ Unfaulted i s' ∧ Recovering i p s' := by
    rintro s a s' ⟨h₁, h₂, h₃, h₄⟩ hupa hs
    have hm := Moved.of_step hs
    exact ⟨h₁.step hs, h₂.step hm, h₃.step hm hupa, h₄.step h₁ h₂ h₃ hm hupa⟩
  obtain ⟨hled₁, -, hclean₁, hrec₁⟩ :=
    run_inv_along hstep (along_of_forall hup w) ⟨hled, hlock, hclean, hrec⟩ hrun₁
  have hnone₁ : (w₁.limiters i).lastFlushErr = none := by
    rcases hrec₁ with hnone | ⟨pc, hp, haw⟩
    · exact hnone
    · rw [hdone] at hp
      cases hp
      cases haw
  refine ⟨hnone₁, ?_⟩
  intro after w₂ hup₂ hrun₂
  have hhealthy : Healthy i w₁.next w₁ := by
    refine ⟨hclean₁, hnone₁, ?_⟩
    intro q pc hq hp
    rw [hled₁.unborn q hq] at hp
    cases hp
  have h₂ : Healthy i w₁.next w₂ :=
    run_inv_along (P := fun _ a => a.redisUp = true)
      (fun _ _ _ h hupa hs => Healthy.step h (.of_step hs) hupa) (along_of_forall hup₂ w₁)
      hhealthy hrun₂
  exact ⟨h₂.stored, h₂.calls⟩

/-- A hit, and a tick that cannot flush it; then the timer fires again. -/
def failedTick : List (Action 1) :=
  takeAlone sole 0 ++ [Action.fire sole 0] ++ pieces 1 1 ++ [Action.run 1 ⟨0, [0], none⟩] ++
    pieces 1 1 ++ [Action.eval 1 (some "redis:unreachable")] ++ pieces 1 6 ++
    [Action.fire sole 1] ++ pieces 2 1

/-- The second tick, with Redis back. -/
def goodTick : List (Action 1) :=
  [Action.run 2 ⟨0, [0], none⟩] ++ pieces 2 1 ++ [Action.eval 2 none] ++ pieces 2 4

theorem tick_with_delta_recovers_failedTick :
    ∃ w w₁, run World.step (World.init Store.empty fun _ => everySecond) failedTick = some w ∧
      (w.limiters 0).lastFlushErr = some "redis:unreachable" ∧
      run World.step w goodTick = some w₁ ∧ (w₁.limiters 0).lastFlushErr = none := by
  refine ⟨_, _, rfl, rfl, rfl, ?_⟩
  exact (tick_with_delta_recovers Store.empty (fun _ => everySecond)
    (fun _ => ⟨1000000000, by decide, (Option.some_get _).symm⟩) failedTick _ rfl 0 2 rfl
    (by decide +kernel) (.inl (by decide +kernel)) goodTick _ (by decide +kernel) rfl rfl).1

/-- Two Peeks of a ten second window, the second a second later and with
Redis down; then the timer fires. -/
def failedProbe : List (Action 1) :=
  [Action.peek sole "k" 1 10000000000 0] ++ pieces 0 2 ++ [Action.get 0 none] ++ pieces 0 3 ++
    [Action.get 0 none] ++ pieces 0 3 ++
  [Action.peek sole "k" 1 10000000000 1000000000] ++ piecesAt 1 7 1000000000 ++
    [Action.run 1 ⟨1000000000, [], some ⟨"k", 0⟩⟩, .get 1 (some "redis:unreachable")] ++
    piecesAt 1 2 1000000000 ++
  [Action.fire sole 0] ++ piecesAt 2 1 1000000000

/-- The tick finds nothing to flush. -/
def emptyTick : List (Action 1) := piecesAt 2 3 1000000000

/-- A Peek after the tick. -/
def laterPeek : List (Action 1) :=
  [Action.peek sole "k" 1 10000000000 2000000000] ++ piecesAt 3 3 2000000000 ++
    [Action.get 3 none] ++ piecesAt 3 3 2000000000

/-- With Peeks only, a tick that Redis answered throughout leaves the error
of the failed probe stored, and the next Peek returns it. -/
theorem tick_without_delta_keeps_error :
    ∃ w w₁ w₂ ans,
      run World.step (World.init Store.empty fun _ => everySecond) failedProbe = some w ∧
      w.procs 2 = some ⟨0, .held (.flushStart .tick)⟩ ∧ w.AloneAtRedis 0 2 ∧
      (∀ a ∈ emptyTick, a.redisUp = true) ∧ run World.step w emptyTick = some w₁ ∧
      w₁.procs 2 = some ⟨0, .lock .rearm⟩ ∧
      (w₁.limiters 0).lastFlushErr = some "redis:unreachable" ∧
      (∀ a ∈ laterPeek, a.redisUp = true) ∧ run World.step w₁ laterPeek = some w₂ ∧
      w₂.procs 3 = some ⟨0, .answered ans (some "redis:unreachable")⟩ :=
  ⟨_, _, _, _, rfl, rfl, by decide +kernel, by decide +kernel, rfl, rfl, rfl, by decide +kernel,
    rfl, rfl⟩

end MiddlewareUtils.WindowCounter
