import MiddlewareUtils.Lib.Tally
import MiddlewareUtils.WindowCounter.Buffered

/-!
# The flush timer of one limiter

What Sleep, Wake, Close and the ticks do to each other needs little of a
limiter: two flags, the timer field, the timers that were made, the wait
group, and how far each call is. `Chain` is that and no more, with one `Step`
for each thing that can happen to it. Which calls these are, what they flush
and where the lock is taken is left to the machine underneath.

The argument is a count. A chain is an armed timer or a running tick; the
wait group has one for each chain and one for each timer that was stopped in
time and not yet accounted for. `stopping` counts the calls that have
detached the timer and not returned, and that is the fact that fails when a
second call looks at the timer field during the first one's wait: it finds
the field empty and resets the flag. So `Step` has the two ways of entering
the stop only with the flag down.
-/

namespace MiddlewareUtils.WindowCounter

open Lib Function

/-- How far a call is, as far as the timer is concerned. -/
inductive Phase where
  | idle
  /-- In `flushAfterTick`. -/
  | tick
  /-- A Sleep or Close that has not looked at the timer yet. -/
  | flushing
  /-- Has detached this timer. -/
  | timer (t : ℕ)
  /-- Has stopped it in time and not called `Done`. -/
  | done
  | wait
  | clear
  deriving DecidableEq, Repr

namespace Phase

def ticks : Phase → ℕ
  | tick => 1
  | _ => 0

def stopped : Phase → ℕ
  | done => 1
  | _ => 0

def detached : Phase → ℕ
  | timer _ | done | wait | clear => 1
  | _ => 0

end Phase

def TimerStatus.live : TimerStatus → ℕ
  | armed => 1
  | _ => 0

structure Chain where
  closed : Bool
  stopping : Bool
  flushTimer : Option ℕ
  timers : ℕ → TimerStatus
  nextTimer : ℕ
  flushBusy : ℤ
  phases : ℕ → Phase
  next : ℕ
  /-- The Close that set `closed`. -/
  closer : Option ℕ

namespace Chain

/-- Process `p` goes to a phase. -/
def goto (s : Chain) (p : ℕ) (ph : Phase) : Chain :=
  { s with phases := update s.phases p ph }

/-- A call begins. -/
def spawn (s : Chain) (ph : Phase) : Chain := { s.goto s.next ph with next := s.next + 1 }

def arm (s : Chain) : Chain :=
  { s with
    flushTimer := some s.nextTimer
    timers := update s.timers s.nextTimer .armed
    nextTimer := s.nextTimer + 1 }

def setTimer (s : Chain) (t : ℕ) (status : TimerStatus) : Chain :=
  { s with timers := update s.timers t status }

inductive Step (s : Chain) : Chain → Prop
  | begin {ph} (hph : ph = .idle ∨ ph = .flushing) : Step s (s.spawn ph)
  | fire {t} (harmed : s.timers t = .armed) : Step s ((s.setTimer t .fired).spawn .tick)
  | wake (hclosed : s.closed = false) (hstop : s.stopping = false) (hnone : s.flushTimer = none) :
      Step s { s.arm with flushBusy := s.flushBusy + 1 }
  | rearm {p} (hph : s.phases p = .tick) (hclosed : s.closed = false)
      (hstop : s.stopping = false) : Step s (s.arm.goto p .idle)
  | tickDone {p} (hph : s.phases p = .tick) :
      Step s ({ s with flushBusy := s.flushBusy - 1 }.goto p .idle)
  | close {p} (hp : p < s.next) (hph : s.phases p = .idle) (hopen : s.closed = false) :
      Step s ({ s with closed := true, closer := some p }.goto p .flushing)
  | stopNone {p} (hph : s.phases p = .flushing) (hstop : s.stopping = false)
      (hnone : s.flushTimer = none) : Step s (s.goto p .idle)
  | detach {p t} (hph : s.phases p = .flushing) (hstop : s.stopping = false)
      (ht : s.flushTimer = some t) :
      Step s ({ s with stopping := true, flushTimer := none }.goto p (.timer t))
  | stopInTime {p t} (hph : s.phases p = .timer t) (harmed : s.timers t = .armed) :
      Step s ((s.setTimer t .stopped).goto p .done)
  | stopLate {p t} (hph : s.phases p = .timer t) (hlate : s.timers t ≠ .armed) :
      Step s (s.goto p .wait)
  | stopDone {p} (hph : s.phases p = .done) :
      Step s ({ s with flushBusy := s.flushBusy - 1 }.goto p .wait)
  | waited {p} (hph : s.phases p = .wait) (hbusy : s.flushBusy = 0) : Step s (s.goto p .clear)
  | clear {p} (hph : s.phases p = .clear) : Step s ({ s with stopping := false }.goto p .idle)

/-! ## The counts -/

def armedTimers (s : Chain) : ℕ := tally TimerStatus.live s.timers s.nextTimer

def ticks (s : Chain) : ℕ := tally Phase.ticks s.phases s.next

/-- Timers stopped in time and not accounted for. -/
def unaccounted (s : Chain) : ℕ := tally Phase.stopped s.phases s.next

def stoppers (s : Chain) : ℕ := tally Phase.detached s.phases s.next

/-- Armed timers and running ticks. -/
def chains (s : Chain) : ℕ := s.armedTimers + s.ticks

structure Inv (s : Chain) : Prop where
  made : ∀ t, s.timers t = .armed → t < s.nextTimer
  born : ∀ p, s.phases p ≠ .idle → p < s.next
  busy : s.flushBusy = s.chains + s.unaccounted
  one : s.chains ≤ 1
  stops : s.stoppers = s.stopping.toNat
  /-- A call in the stop has emptied the timer field. -/
  empty : s.stopping = true → s.flushTimer = none
  owned : ∀ t, s.timers t = .armed → s.flushTimer = some t ∨ ∃ p, s.phases p = .timer t
  watched : 0 < s.ticks → s.flushTimer ≠ none ∨ s.stopping = true
  ended : ∀ p, s.phases p = .clear → s.chains = 0
  last : ∀ p, s.closer = some p → s.closed = true ∧ (s.phases p = .flushing ∨
    s.flushTimer = none ∧ ∀ t, s.timers t = .armed → s.phases p = .timer t)

variable {s s' : Chain} {p q t : ℕ} {ph : Phase}

theorem counts_goto {old : Phase} (hold : s.phases p = old) (hp : p < s.next) (ph : Phase) :
    (s.goto p ph).ticks + old.ticks = s.ticks + ph.ticks ∧
      (s.goto p ph).unaccounted + old.stopped = s.unaccounted + ph.stopped ∧
      (s.goto p ph).stoppers + old.detached = s.stoppers + ph.detached :=
  hold ▸ ⟨tally_update hp, tally_update hp, tally_update hp⟩

theorem tally_begin (f : Phase → ℕ) :
    tally f (s.spawn ph).phases (s.spawn ph).next = tally f s.phases s.next + f ph :=
  tally_spawn

theorem armedTimers_arm : s.arm.armedTimers = s.armedTimers + 1 := tally_spawn

theorem armedTimers_setTimer {status : TimerStatus} (ht : t < s.nextTimer)
    (harmed : s.timers t = .armed) (hstatus : status ≠ .armed) :
    (s.setTimer t status).armedTimers + 1 = s.armedTimers := by
  have h : tally TimerStatus.live (update s.timers t status) s.nextTimer +
      (s.timers t).live = s.armedTimers + status.live := tally_update ht
  rw [harmed] at h
  cases status with
  | armed => exact absurd rfl hstatus
  | fired | stopped => exact h

theorem phases_goto_self : (s.goto p ph).phases p = ph := update_self ..

theorem phases_goto_of_ne (hq : q ≠ p) : (s.goto p ph).phases q = s.phases q :=
  update_of_ne hq ..

theorem phases_goto {old : Phase} (h : (s.goto p ph).phases q = old) (hph : ph ≠ old) :
    q ≠ p ∧ s.phases q = old := by
  have hq : q ≠ p := by
    rintro rfl
    exact hph (phases_goto_self.symm.trans h)
  exact ⟨hq, (phases_goto_of_ne hq).symm.trans h⟩

theorem timers_setTimer {status : TimerStatus} {u : ℕ} (hstatus : status ≠ .armed)
    (h : (s.setTimer t status).timers u = .armed) : u ≠ t ∧ s.timers u = .armed := by
  have hu : u ≠ t := by
    rintro rfl
    exact hstatus ((update_self ..).symm.trans h)
  exact ⟨hu, (update_of_ne hu ..).symm.trans h⟩

namespace Inv

theorem stopping_of_detached (h : s.Inv) (hp : (s.phases p).detached = 1) : s.stopping = true := by
  have hne : s.phases p ≠ .idle := by
    intro hidle
    rw [hidle] at hp
    exact nomatch hp
  have hle : (s.phases p).detached ≤ s.stoppers := le_tally (h.born p hne)
  have hstops := h.stops
  cases hs : s.stopping with
  | true => rfl
  | false =>
    rw [hs, Bool.toNat_false] at hstops
    omega

theorem owned_of_not_stopping (h : s.Inv) (hstop : s.stopping = false)
    (ht : s.timers t = .armed) : s.flushTimer = some t := by
  rcases h.owned t ht with howned | ⟨p, hp⟩
  · exact howned
  · have hstopping := h.stopping_of_detached (p := p) (by rw [hp]; rfl)
    exact nomatch hstop.symm.trans hstopping

theorem not_clear (h : s.Inv) (hstop : s.stopping = false) : s.phases p ≠ .clear := by
  intro hclear
  have hstopping := h.stopping_of_detached (p := p) (by rw [hclear]; rfl)
  exact nomatch hstop.symm.trans hstopping

theorem armed_pos (h : s.Inv) (ht : s.timers t = .armed) : 0 < s.armedTimers := by
  have hle : (s.timers t).live ≤ s.armedTimers := le_tally (h.made t ht)
  rw [ht] at hle
  exact hle

theorem ticks_pos (h : s.Inv) (hp : s.phases p = .tick) : 0 < s.ticks := by
  have hle : (s.phases p).ticks ≤ s.ticks := le_tally (h.born p (by rw [hp]; nofun))
  rw [hp] at hle
  exact hle

theorem chains_of_empty (h : s.Inv) (hstop : s.stopping = false) (hnone : s.flushTimer = none) :
    s.chains = 0 := by
  have harmed : s.armedTimers = 0 := by
    refine tally_eq_zero fun t _ => ?_
    cases ht : s.timers t with
    | armed => exact nomatch hnone.symm.trans (h.owned_of_not_stopping hstop ht)
    | fired | stopped => rfl
  have hticks : s.ticks = 0 := by
    by_contra hne
    rcases h.watched (Nat.pos_of_ne_zero hne) with htimer | hstopping
    · exact htimer hnone
    · exact nomatch hstop.symm.trans hstopping
  rw [chains, harmed, hticks]

theorem born_goto (h : s.Inv) (hp : p < s.next) (hq : (s.goto p ph).phases q ≠ .idle) :
    q < s.next := by
  by_cases hqp : q = p
  · exact hqp ▸ hp
  · exact h.born q (phases_goto_of_ne hqp ▸ hq)

/-! ## Each step keeps the count -/

theorem spawn_owned (h : s.Inv) {u : ℕ} (hu : s.flushTimer = some u ∨ ∃ p, s.phases p = .timer u) :
    s.flushTimer = some u ∨ ∃ p, (s.spawn ph).phases p = .timer u := by
  refine hu.imp_right fun ⟨p, hp⟩ => ⟨p, ?_⟩
  have hlt : p < s.next := h.born p (by rw [hp]; nofun)
  exact (phases_goto_of_ne hlt.ne).trans hp

theorem spawn_last (h : s.Inv) (ph : Phase) (hc : s.closer = some p) :
    s.closed = true ∧ ((s.spawn ph).phases p = .flushing ∨
      s.flushTimer = none ∧ ∀ t, s.timers t = .armed → (s.spawn ph).phases p = .timer t) := by
  have hsame : s.phases p ≠ .idle → (s.spawn ph).phases p = s.phases p :=
    fun hne => phases_goto_of_ne (h.born p hne).ne
  obtain ⟨hclosed, hlast⟩ := h.last p hc
  refine ⟨hclosed, hlast.imp (fun hp => ?_) fun ⟨hnone, harmed⟩ => ⟨hnone, fun t ht => ?_⟩⟩
  · exact (hsame (by rw [hp]; nofun)).trans hp
  · have hp := harmed t ht
    exact (hsame (by rw [hp]; nofun)).trans hp

theorem born_spawn (h : s.Inv) (hq : (s.spawn ph).phases q ≠ .idle) : q < s.next + 1 := by
  by_cases hqp : q = s.next
  · exact hqp ▸ Nat.lt_succ_self _
  · have hold : (s.spawn ph).phases q = s.phases q := phases_goto_of_ne hqp
    exact Nat.lt_succ_of_lt (h.born q (hold ▸ hq))

theorem begin (h : s.Inv) (hph : ph = .idle ∨ ph = .flushing) : (s.spawn ph).Inv := by
  have hzero : ph.ticks = 0 ∧ ph.stopped = 0 ∧ ph.detached = 0 ∧ ph ≠ .clear := by
    rcases hph with rfl | rfl <;> exact ⟨rfl, rfl, rfl, nofun⟩
  obtain ⟨hzt, hzs, hzd, hclear⟩ := hzero
  have hticks : (s.spawn ph).ticks = s.ticks := by rw [ticks, tally_begin, hzt]; rfl
  have hstopped : (s.spawn ph).unaccounted = s.unaccounted := by
    rw [unaccounted, tally_begin, hzs]; rfl
  have hdetached : (s.spawn ph).stoppers = s.stoppers := by rw [stoppers, tally_begin, hzd]; rfl
  have hchains : (s.spawn ph).chains = s.chains := by rw [chains, hticks]; rfl
  refine ⟨h.made, fun q hq => h.born_spawn hq, ?_, ?_, ?_, h.empty, fun t ht => h.spawn_owned
    (h.owned t ht), ?_, ?_, fun p hc => h.spawn_last ph hc⟩
  · rw [hchains, hstopped]
    exact h.busy
  · rw [hchains]
    exact h.one
  · rw [hdetached]
    exact h.stops
  · rw [hticks]
    exact h.watched
  · intro q hq
    rw [hchains]
    exact h.ended q (phases_goto hq hclear).2

theorem fire (h : s.Inv) (harmed : s.timers t = .armed) :
    ((s.setTimer t .fired).spawn .tick).Inv := by
  have hfired : TimerStatus.fired ≠ .armed := nofun
  have hleft := armedTimers_setTimer (h.made t harmed) harmed hfired
  have hticks : ((s.setTimer t .fired).spawn .tick).ticks = s.ticks + 1 := tally_begin _
  have hstopped : ((s.setTimer t .fired).spawn .tick).unaccounted = s.unaccounted :=
    tally_begin _
  have hdetached : ((s.setTimer t .fired).spawn .tick).stoppers = s.stoppers := tally_begin _
  have hchains : ((s.setTimer t .fired).spawn .tick).chains = s.chains := by
    show (s.setTimer t .fired).armedTimers + _ = _
    rw [hticks, chains]
    omega
  have hold : ∀ u, (s.setTimer t .fired).timers u = .armed → s.timers u = .armed :=
    fun u hu => (timers_setTimer hfired hu).2
  refine ⟨fun u hu => h.made u (hold u hu), fun q hq => h.born_spawn hq, ?_, ?_, ?_, h.empty,
    fun u hu => h.spawn_owned (h.owned u (hold u hu)), ?_, ?_, ?_⟩
  · rw [hchains, hstopped]
    exact h.busy
  · rw [hchains]
    exact h.one
  · rw [hdetached]
    exact h.stops
  · intro _
    rcases h.owned t harmed with howned | ⟨p, hp⟩
    · left
      show s.flushTimer ≠ none
      rw [howned]
      nofun
    · have hstopping : s.stopping = true := h.stopping_of_detached (p := p) (by rw [hp]; rfl)
      exact .inr hstopping
  · intro q hq
    rw [hchains]
    exact h.ended q (phases_goto hq nofun).2
  · intro p hc
    obtain ⟨hclosed, hlast⟩ := h.spawn_last .tick hc
    exact ⟨hclosed,
      hlast.imp_right fun ⟨hnone, harmed⟩ => ⟨hnone, fun u hu => harmed u (hold u hu)⟩⟩

theorem wake (h : s.Inv) (hclosed : s.closed = false) (hstop : s.stopping = false)
    (hnone : s.flushTimer = none) : { s.arm with flushBusy := s.flushBusy + 1 }.Inv := by
  have hzero := h.chains_of_empty hstop hnone
  have hone : s.arm.chains = 1 := by
    show s.arm.armedTimers + s.ticks = 1
    rw [armedTimers_arm]
    unfold chains at hzero
    omega
  have hnew : ∀ u, s.arm.timers u = .armed → u = s.nextTimer := by
    intro u hu
    by_contra hne
    have hold : s.timers u = .armed := (update_of_ne hne ..).symm.trans hu
    exact nomatch hnone.symm.trans (h.owned_of_not_stopping hstop hold)
  refine ⟨fun u hu => hnew u hu ▸ Nat.lt_succ_self _, h.born, ?_, hone.le, h.stops,
    ?_, ?_, ?_, ?_, ?_⟩
  · show s.flushBusy + 1 = (s.arm.chains : ℤ) + s.unaccounted
    have hbusy := h.busy
    rw [hone]
    omega
  · exact fun hs => nomatch hstop.symm.trans hs
  · exact fun u hu => Or.inl (congrArg some (hnew u hu).symm)
  · exact fun _ => Or.inl nofun
  · exact fun q hq => absurd hq (h.not_clear hstop)
  · exact fun q hq => nomatch hclosed.symm.trans (h.last q hq).1

theorem born_of (h : s.Inv) {old : Phase} (hold : s.phases p = old) (hne : old ≠ .idle) :
    p < s.next :=
  h.born p (hold ▸ hne)

theorem rearm (h : s.Inv) (hph : s.phases p = .tick) (hclosed : s.closed = false)
    (hstop : s.stopping = false) : (s.arm.goto p .idle).Inv := by
  have hp := h.born_of hph nofun
  have hpos := h.ticks_pos hph
  have hle := h.one
  unfold chains at hle
  obtain ⟨hticks, hstopped, hdetached⟩ := counts_goto hph hp .idle
  have hticks : (s.arm.goto p .idle).ticks + 1 = s.ticks := hticks
  have hstopped : (s.arm.goto p .idle).unaccounted = s.unaccounted := hstopped
  have hchains : (s.arm.goto p .idle).chains = s.chains := by
    have harm : (s.arm.goto p .idle).armedTimers = s.armedTimers + 1 := armedTimers_arm
    unfold chains
    omega
  have hnew : ∀ u, s.arm.timers u = .armed → u = s.nextTimer := by
    intro u hu
    by_contra hne
    have hold : s.timers u = .armed := (update_of_ne hne ..).symm.trans hu
    have := h.armed_pos hold
    omega
  refine ⟨fun u hu => hnew u hu ▸ Nat.lt_succ_self _, fun q hq => h.born_goto hp hq, ?_, ?_, ?_, ?_,
    ?_, ?_, ?_, ?_⟩
  · rw [hchains, hstopped]
    exact h.busy
  · rw [hchains]
    exact h.one
  · exact hdetached.trans h.stops
  · exact fun hs => nomatch hstop.symm.trans hs
  · exact fun u hu => Or.inl (congrArg some (hnew u hu).symm)
  · exact fun _ => Or.inl nofun
  · exact fun q hq => absurd (phases_goto hq nofun).2 (h.not_clear hstop)
  · exact fun q hq => nomatch hclosed.symm.trans (h.last q hq).1

theorem owned_goto (hu : s.flushTimer = some q ∨ ∃ r, s.phases r = .timer q)
    (hne : s.phases p ≠ .timer q) :
    s.flushTimer = some q ∨ ∃ r, (s.goto p ph).phases r = .timer q := by
  refine hu.imp_right fun ⟨r, hr⟩ => ⟨r, ?_⟩
  have hrp : r ≠ p := by
    rintro rfl
    exact hne hr
  exact (phases_goto_of_ne hrp).trans hr

theorem last_goto (h : s.Inv) (hc : s.closer = some q) (hflush : s.phases p ≠ .flushing)
    (htimer : ∀ t, s.timers t = .armed → s.phases p ≠ .timer t) :
    s.closed = true ∧ ((s.goto p ph).phases q = .flushing ∨
      s.flushTimer = none ∧ ∀ t, s.timers t = .armed → (s.goto p ph).phases q = .timer t) := by
  obtain ⟨hclosed, hlast⟩ := h.last q hc
  refine ⟨hclosed, hlast.imp (fun hq => ?_) fun ⟨hnone, harmed⟩ => ⟨hnone, fun t ht => ?_⟩⟩
  · have hne : q ≠ p := by
      rintro rfl
      exact hflush hq
    exact (phases_goto_of_ne hne).trans hq
  · have hq := harmed t ht
    have hne : q ≠ p := by
      rintro rfl
      exact htimer t ht hq
    exact (phases_goto_of_ne hne).trans hq

theorem goes (h : s.Inv) {old : Phase} (hph : s.phases p = old) (hp : p < s.next) (ph : Phase)
    {closed stopping : Bool} {flushTimer closer : Option ℕ} {busy : ℤ}
    (hless : ph.ticks ≤ old.ticks)
    (hbusy : busy + old.ticks + old.stopped = s.flushBusy + ph.ticks + ph.stopped)
    (hstops : stopping.toNat + old.detached = s.stopping.toNat + ph.detached)
    (hempty : stopping = true → flushTimer = none)
    (howned : ∀ u, s.timers u = .armed →
      flushTimer = some u ∨ ∃ r, (s.goto p ph).phases r = .timer u)
    (hwatched : 0 < s.ticks → flushTimer ≠ none ∨ stopping = true)
    (hended : ph = .clear → s.chains = 0)
    (hlast : ∀ q, closer = some q → closed = true ∧ ((s.goto p ph).phases q = .flushing ∨
      flushTimer = none ∧ ∀ u, s.timers u = .armed → (s.goto p ph).phases q = .timer u)) :
    ({ s with
      closed := closed
      stopping := stopping
      flushTimer := flushTimer
      flushBusy := busy
      closer := closer }.goto p ph).Inv := by
  obtain ⟨hticks, hstopped, hdetached⟩ := counts_goto hph hp ph
  have hchains : (s.goto p ph).chains + old.ticks = s.chains + ph.ticks := by
    show s.armedTimers + (s.goto p ph).ticks + _ = s.armedTimers + s.ticks + _
    omega
  have hall := h.busy
  have hone := h.one
  have hstop := h.stops
  refine ⟨h.made, fun q hq => h.born_goto hp hq, ?_, ?_, ?_, hempty, howned,
    fun ht => hwatched ?_, fun q hq => ?_, hlast⟩
  · show busy = ((s.goto p ph).chains : ℤ) + (s.goto p ph).unaccounted
    omega
  · show (s.goto p ph).chains ≤ 1
    omega
  · show (s.goto p ph).stoppers = stopping.toNat
    omega
  · have hpos : 0 < (s.goto p ph).ticks := ht
    omega
  · have hzero : s.chains = 0 := by
      by_cases hclear : ph = .clear
      · exact hended hclear
      · exact h.ended q (phases_goto hq hclear).2
    show (s.goto p ph).chains = 0
    omega

theorem tickDone (h : s.Inv) (hph : s.phases p = .tick) :
    ({ s with flushBusy := s.flushBusy - 1 }.goto p .idle).Inv :=
  h.goes hph (h.born_of hph nofun) .idle (Nat.zero_le _)
    (by simp only [Phase.ticks, Phase.stopped]; omega) rfl h.empty
    (fun u hu => owned_goto (h.owned u hu) (by rw [hph]; nofun)) h.watched nofun
    fun q hq => h.last_goto hq (by rw [hph]; nofun) fun _ _ => by rw [hph]; nofun

theorem close (h : s.Inv) (hp : p < s.next) (hph : s.phases p = .idle) :
    ({ s with closed := true, closer := some p }.goto p .flushing).Inv := by
  refine h.goes hph hp .flushing le_rfl rfl rfl h.empty
    (fun u hu => owned_goto (h.owned u hu) (by rw [hph]; nofun)) h.watched nofun fun q hq => ?_
  cases hq
  exact ⟨rfl, Or.inl phases_goto_self⟩

theorem stopNone (h : s.Inv) (hph : s.phases p = .flushing) (hstop : s.stopping = false)
    (hnone : s.flushTimer = none) : (s.goto p .idle).Inv := by
  have hunarmed : ∀ u, s.timers u ≠ .armed :=
    fun u hu => nomatch hnone.symm.trans (h.owned_of_not_stopping hstop hu)
  exact h.goes hph (h.born_of hph nofun) .idle le_rfl rfl rfl h.empty
    (fun u hu => absurd hu (hunarmed u)) h.watched nofun
    fun q hq => ⟨(h.last q hq).1, Or.inr ⟨hnone, fun u hu => absurd hu (hunarmed u)⟩⟩

theorem detach (h : s.Inv) (hph : s.phases p = .flushing) (hstop : s.stopping = false)
    (ht : s.flushTimer = some t) :
    ({ s with stopping := true, flushTimer := none }.goto p (.timer t)).Inv := by
  have hmine : ∀ u, s.timers u = .armed → u = t :=
    fun u hu => Option.some.inj ((h.owned_of_not_stopping hstop hu).symm.trans ht)
  refine h.goes hph (h.born_of hph nofun) (.timer t) le_rfl rfl (by rw [hstop]; rfl) (fun _ => rfl)
    (fun u hu => Or.inr ⟨p, hmine u hu ▸ phases_goto_self⟩) (fun _ => Or.inr rfl) nofun
    fun q hq => ?_
  obtain ⟨hclosed, hlast⟩ := h.last q hq
  refine ⟨hclosed, ?_⟩
  by_cases hqp : q = p
  · exact .inr ⟨rfl, fun u hu => hqp ▸ hmine u hu ▸ phases_goto_self⟩
  · rcases hlast with hflush | ⟨hnone, _⟩
    · exact .inl ((phases_goto_of_ne hqp).trans hflush)
    · exact nomatch hnone.symm.trans ht

theorem stopInTime (h : s.Inv) (hph : s.phases p = .timer t) (harmed : s.timers t = .armed) :
    ((s.setTimer t .stopped).goto p .done).Inv := by
  have hp := h.born_of hph nofun
  have hnot : TimerStatus.stopped ≠ .armed := nofun
  have hleft := armedTimers_setTimer (h.made t harmed) harmed hnot
  have hold : ∀ u, (s.setTimer t .stopped).timers u = .armed → u ≠ t ∧ s.timers u = .armed :=
    fun u hu => timers_setTimer hnot hu
  obtain ⟨hticks, hstopped, hdetached⟩ := counts_goto hph hp .done
  have hticks : (s.goto p .done).ticks = s.ticks := hticks
  have hstopped : (s.goto p .done).unaccounted = s.unaccounted + 1 := hstopped
  have hdetached : (s.goto p .done).stoppers = s.stoppers := Nat.succ.inj hdetached
  have hchains : ((s.setTimer t .stopped).goto p .done).chains + 1 = s.chains := by
    show (s.setTimer t .stopped).armedTimers + (s.goto p .done).ticks + 1 = s.armedTimers + s.ticks
    omega
  have hother : ∀ u, u ≠ t → s.phases p ≠ .timer u := by
    intro u hu hpu
    exact hu (Phase.timer.inj (hpu.symm.trans hph))
  refine ⟨fun u hu => h.made u (hold u hu).2, fun q hq => h.born_goto hp hq, ?_, ?_,
    hdetached.trans h.stops, h.empty, ?_, fun ht => h.watched (ht.trans_eq hticks), ?_, ?_⟩
  · show s.flushBusy = (((s.setTimer t .stopped).goto p .done).chains : ℤ) +
      (s.goto p .done).unaccounted
    have hbusy := h.busy
    omega
  · have := h.one
    omega
  · intro u hu
    obtain ⟨hne, hu⟩ := hold u hu
    exact owned_goto (h.owned u hu) (hother u hne)
  · intro q hq
    have := h.ended q (phases_goto hq nofun).2
    omega
  · intro q hq
    obtain ⟨hclosed, hlast⟩ := h.last q hq
    refine ⟨hclosed, hlast.imp (fun hflush => ?_) fun ⟨hnone, htimer⟩ => ⟨hnone, fun u hu => ?_⟩⟩
    · have hne : q ≠ p := by
        rintro rfl
        exact nomatch hflush.symm.trans hph
      exact (phases_goto_of_ne hne).trans hflush
    · obtain ⟨hne, hu⟩ := hold u hu
      have hqu := htimer u hu
      have hqp : q ≠ p := by
        rintro rfl
        exact hother u hne hqu
      exact (phases_goto_of_ne hqp).trans hqu

theorem waits (h : s.Inv) {old : Phase} (hph : s.phases p = old) (hold : old.detached = 1)
    (hlate : ∀ u, s.timers u = .armed → old ≠ .timer u) {busy : ℤ}
    (hbusy : busy + old.stopped = s.flushBusy) :
    ({ s with flushBusy := busy }.goto p .wait).Inv := by
  have hcases : old ≠ .idle ∧ old ≠ .flushing ∧ old.ticks = 0 := by
    cases old with
    | idle | tick | flushing => exact nomatch hold
    | timer | done | wait | clear => exact ⟨nofun, nofun, rfl⟩
  obtain ⟨hidle, hflush, htick⟩ := hcases
  refine h.goes hph (h.born_of hph hidle) .wait (Nat.zero_le _) ?_ (by rw [hold]; rfl) h.empty
    (fun u hu => owned_goto (h.owned u hu) (by rw [hph]; exact hlate u hu)) h.watched nofun
    fun q hq => h.last_goto hq (by rw [hph]; exact hflush) fun u hu => by rw [hph]; exact hlate u hu
  rw [htick, show Phase.wait.ticks = 0 from rfl, show Phase.wait.stopped = 0 from rfl]
  omega

theorem waited (h : s.Inv) (hph : s.phases p = .wait) (hbusy : s.flushBusy = 0) :
    (s.goto p .clear).Inv := by
  have hall := h.busy
  exact h.goes hph (h.born_of hph nofun) .clear le_rfl rfl rfl h.empty
    (fun u hu => owned_goto (h.owned u hu) (by rw [hph]; nofun)) h.watched (fun _ => by omega)
    fun q hq => h.last_goto hq (by rw [hph]; nofun) fun _ _ => by rw [hph]; nofun

theorem clear (h : s.Inv) (hph : s.phases p = .clear) :
    ({ s with stopping := false }.goto p .idle).Inv := by
  have hzero := h.ended p hph
  unfold chains at hzero
  have hunarmed : ∀ u, s.timers u ≠ .armed := by
    intro u hu
    have := h.armed_pos hu
    omega
  have hstopping := h.stopping_of_detached (p := p) (by rw [hph]; rfl)
  exact h.goes hph (h.born_of hph nofun) .idle le_rfl rfl (by rw [hstopping]; rfl) nofun
    (fun u hu => absurd hu (hunarmed u)) (fun ht => by omega) nofun
    fun q hq => h.last_goto hq (by rw [hph]; nofun) fun u hu => absurd hu (hunarmed u)

theorem step (h : s.Inv) (hs : s.Step s') : s'.Inv := by
  cases hs with
  | begin hph => exact h.begin hph
  | fire harmed => exact h.fire harmed
  | wake hclosed hstop hnone => exact h.wake hclosed hstop hnone
  | rearm hph hclosed hstop => exact h.rearm hph hclosed hstop
  | tickDone hph => exact h.tickDone hph
  | close hp hph => exact h.close hp hph
  | stopNone hph hstop hnone => exact h.stopNone hph hstop hnone
  | detach hph hstop ht => exact h.detach hph hstop ht
  | stopInTime hph harmed => exact h.stopInTime hph harmed
  | @stopLate p t hph hlate =>
    refine h.waits hph rfl (fun u hu htimer => ?_) (Int.add_zero _)
    cases htimer
    exact hlate hu
  | stopDone hph => exact h.waits hph rfl (fun _ _ => nofun) (Int.sub_add_cancel _ _)
  | waited hph hbusy => exact h.waited hph hbusy
  | clear hph => exact h.clear hph

end Inv

end Chain

end MiddlewareUtils.WindowCounter
