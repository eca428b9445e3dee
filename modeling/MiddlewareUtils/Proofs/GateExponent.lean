import MiddlewareUtils.BackendBackoff.Callers
import MiddlewareUtils.BackendBackoff.Chronicle

/-!
# The backoff exponent is a fact of the history

A key that trips again and again waits longer each time: `n` counts the
failed probes. It is to be forgotten once the key has been CLOSED for
`MaxCooldown`, but nobody watches the clock for that. `n` is reset by the
next Allow or failing Report that happens to look, or by none.

It makes no difference who looks. While the key is CLOSED, `n` is either
what the history says or zero already, and zero only after the stretch has
grown long. The Report that ends the stretch looks itself before it uses
`n`: if the stretch was long it resets, and if it was short nobody before it
can have seen a long one, the readings of the key not going back. So what is
used for the cooldown is the number of failed probes since the last long
stretch (`exponent`), whatever Allows came in between.

The zero `time.Time` stands for "not CLOSED" in `closedSince`. A key whose
probe succeeds at a reading of just that instant keeps its `n` however long
it stays CLOSED (`closed_at_zero_keeps_n`), so such a Report is excluded. A
key created then has nothing to forget.
-/

namespace MiddlewareUtils.BackendBackoff

open Lib

namespace Event

def endsLong (cfg : Config) : Event → Bool
  | tripped since t => decide (since + cfg.maxCooldown ≤ t)
  | _ => false

def isFailed : Event → Bool
  | failed _ => true
  | _ => false

end Event

/-- The failed probes since the last long stretch ended, or since the key was
created. -/
def exponent (cfg : Config) (log : List Event) : ℕ :=
  (log.takeWhile (!·.endsLong cfg)).countP Event.isFailed

variable {cfg : Config} {budget : ℚ} {clock now : ℤ} {e e' : MemEntry} {log log' : List Event}

theorem exponent_cons {ev : Event} (h : ev.endsLong cfg = false) :
    exponent cfg (ev :: log) = exponent cfg log + if ev.isFailed then 1 else 0 := by
  rw [exponent, List.takeWhile_cons_of_pos (by rw [h]; rfl), List.countP_cons]
  rfl

theorem exponent_long {ev : Event} (h : ev.endsLong cfg = true) :
    exponent cfg (ev :: log) = 0 := by
  rw [exponent, List.takeWhile_cons_of_neg (by rw [h]; decide), List.countP_nil]

/-! ## The entry and its history -/

structure Backed (cfg : Config) (clock : ℤ) (log : List Event) (e : MemEntry) : Prop where
  since : e.state = .stateClosed → e.closedSince = closedAt log
  closed : e.state = .stateClosed →
    e.n = exponent cfg log ∨ e.n = 0 ∧ closedAt log + cfg.maxCooldown ≤ clock
  /-- A `closedSince` that reads as unset has nothing to forget. -/
  unset : e.state = .stateClosed → closedAt log = 0 → e.n = 0 ∧ exponent cfg log = 0
  away : e.state ≠ .stateClosed → e.n = exponent cfg log

namespace Backed

theorem mono (h : Backed cfg clock log e) (hle : clock ≤ now) : Backed cfg now log e := by
  refine ⟨h.since, fun hstate => ?_, h.unset, h.away⟩
  exact (h.closed hstate).imp_right fun hreset => ⟨hreset.1, hreset.2.trans hle⟩

theorem reset_n (h : Backed cfg now log e) (hstate : e.state = .stateClosed) :
    (e.resetNIfClosedLongEnough cfg now).n =
      if closedAt log + cfg.maxCooldown ≤ now then 0 else exponent cfg log := by
  rw [MemEntry.resetNIfClosedLongEnough, h.since hstate]
  by_cases hzero : closedAt log = 0
  · obtain ⟨hn, hexp⟩ := h.unset hstate hzero
    rw [if_pos hzero, hn, hexp, ite_self]
  · rw [if_neg hzero]
    by_cases hlong : closedAt log + cfg.maxCooldown ≤ now
    · rw [if_neg (not_lt.mpr hlong), if_pos hlong]
    · rw [if_pos (not_le.mp hlong), if_neg hlong]
      exact (h.closed hstate).resolve_right fun hreset => hlong hreset.2

theorem looked (h : Backed cfg now log e) (hstate : e.state = .stateClosed)
    (hstate' : e'.state = .stateClosed) (hsince : e'.closedSince = e.closedSince)
    (hn : e'.n = (e.resetNIfClosedLongEnough cfg now).n) (hat : closedAt log' = closedAt log)
    (hexp : exponent cfg log' = exponent cfg log) : Backed cfg now log' e' := by
  have hn := hn.trans (h.reset_n hstate)
  refine ⟨fun _ => ?_, fun _ => ?_, fun _ hzero => ?_, fun hne => absurd hstate' hne⟩
  · rw [hsince, hat]
    exact h.since hstate
  · rw [hn, hat, hexp]
    split
    next hlong => exact .inr ⟨rfl, hlong⟩
    · exact .inl rfl
  · obtain ⟨_, hexp₀⟩ := h.unset hstate (hat ▸ hzero)
    rw [hn, hexp, hexp₀, ite_self]
    exact ⟨rfl, rfl⟩

theorem move (hzero : log' = .closed now :: log → now ≠ 0) (h : Backed cfg now log e)
    (hm : EntryMove cfg budget now e log e' log') : Backed cfg now log' e' := by
  cases hm with
  | ignored => exact h
  | passed hstate =>
    exact h.looked hstate ((e.reset_state cfg now).trans hstate) MemEntry.reset_closedSince rfl
      rfl rfl
  | leased hstate => exact ⟨nofun, nofun, nofun, fun _ => h.away hstate⟩
  | closed hstate =>
    have hn := h.away (by rw [hstate]; nofun)
    refine ⟨fun _ => rfl, fun _ => .inl ?_, fun _ h₀ => absurd h₀ (hzero rfl), fun hne =>
      absurd rfl hne⟩
    rw [exponent_cons rfl, ← hn]
    rfl
  | failed hstate =>
    have hn := h.away (by rw [hstate]; nofun)
    refine ⟨nofun, nofun, nofun, fun _ => ?_⟩
    rw [exponent_cons rfl, ← hn]
    rfl
  | succeeded hstate =>
    refine ⟨h.since, fun _ => ?_, fun _ => ?_, fun hne => absurd hstate hne⟩
    · rw [exponent_cons rfl]
      exact h.closed hstate
    · rw [exponent_cons rfl]
      exact h.unset hstate
  | counted hstate =>
    exact h.looked hstate ((e.reset_state cfg now).trans hstate) MemEntry.reset_closedSince rfl
      rfl (exponent_cons rfl)
  | tripped hstate =>
    refine ⟨nofun, nofun, nofun, fun _ => ?_⟩
    -- The trip looks for itself, and its own stretch decides.
    refine (h.reset_n hstate).trans ?_
    split
    next hlong =>
      exact (@exponent_long cfg _ (.tripped _ _) (decide_eq_true hlong)).symm
    next hshort =>
      rw [@exponent_cons cfg _ (.tripped _ _) (decide_eq_false hshort), exponent_cons rfl]
      rfl

theorem touch (h : Backed cfg clock log e) : Backed cfg clock log (e.touch cfg now) :=
  ⟨h.since, h.closed, h.unset, h.away⟩

end Backed

/-! ## Every state -/

namespace Chronicle

/-- A call on the key does not read an earlier time than the one before it,
and no success is reported at the zero time. -/
def Forward (k : String) (s : Chronicle) : Call → Prop
  | .allow key now _ => key = k → s.clock ≤ now
  | .report key success now _ => key = k → s.clock ≤ now ∧ (success = true → now ≠ 0)
  | .close => True

instance (k : String) (s : Chronicle) : (a : Call) → Decidable (s.Forward k a)
  | .allow .. => inferInstanceAs (Decidable (_ → _))
  | .report .. => inferInstanceAs (Decidable (_ → _))
  | .close => inferInstanceAs (Decidable True)

variable {k : String} {s : Chronicle} {a : Call} {now : ℤ}

theorem Forward.le (h : s.Forward k a) (hk : a.key? = some k) (hnow : a.now? = some now) :
    s.clock ≤ now := by
  cases a with
  | allow key t _ =>
    injection hk with hk
    injection hnow with hnow
    exact hnow ▸ h hk
  | report key success t _ =>
    injection hk with hk
    injection hnow with hnow
    exact hnow ▸ (h hk).1
  | close => cases hk

theorem Forward.closed_ne_zero (h : s.Forward k a) (hlog : s.note k a = .closed now :: s.log) :
    now ≠ 0 := by
  have hself : ∀ {ev : Event}, s.log ≠ ev :: s.log := (List.cons_ne_self _ _).symm
  cases a with
  | allow key t _ =>
    dsimp only [note] at hlog
    split at hlog
    · cases hlog
    · exact absurd hlog hself
  | report key success t _ =>
    dsimp only [note] at hlog
    split at hlog
    next hk =>
      split at hlog
      next e _ =>
        unfold MemEntry.noteReport at hlog
        split at hlog
        · exact absurd hlog hself
        · split at hlog
          · cases success with
            | true =>
              injection hlog with hev
              injection hev with hnow
              exact hnow ▸ (h hk.1).2 rfl
            | false => cases hlog
          · exact absurd hlog hself
        · split at hlog <;> cases hlog
      · exact absurd hlog hself
    · exact absurd hlog hself
  | close => exact absurd hlog hself

end Chronicle

structure BackedInv (cfg : AcceptedConfig) (k : String) (s : Chronicle) : Prop where
  settings : s.gate.cfg = cfg.toConfig
  backed : ∀ e, s.gate.keys.lookup k = some e → Backed cfg.toConfig s.clock s.log e

namespace BackedInv

variable {c : AcceptedConfig} {k : String} {s s' : Chronicle} {a : Call}

theorem step (h : BackedInv c k s) (ha : s.Forward k a) (hs : s.step k a = some s') :
    BackedInv c k s' := by
  obtain ⟨hcfg, _, hclock⟩ := Chronicle.step_settings hs
  have hkey := Chronicle.step_keyStep hs
  have hnote : s'.log = s.note k a := by
    injection hs with hs
    rw [← hs]
  rw [h.settings] at hkey
  refine ⟨hcfg.trans h.settings, fun e' he' => ?_⟩
  rw [he'] at hkey
  generalize hbefore : s.gate.keys.lookup k = before at hkey
  generalize hlog : s'.log = log' at hkey ⊢
  cases hkey with
  | kept =>
    refine (h.backed e' hbefore).mono ?_
    rw [hclock, Chronicle.reading]
    split
    next hk =>
      cases hnow : a.now? with
      | none => exact le_refl _
      | some now => exact ha.le hk hnow
    · exact le_refl _
  | created hk hnow =>
    exact ⟨fun _ => rfl, fun _ => .inl rfl, fun _ _ => ⟨rfl, rfl⟩, fun hne => absurd rfl hne⟩
  | @worked now _ _ _ _ hk hnow hmove =>
    have hread : s'.clock = now := by rw [hclock, Chronicle.reading, if_pos hk, hnow]; rfl
    rw [hread]
    refine Backed.move (fun hclosed => ha.closed_ne_zero ?_)
      ((h.backed _ hbefore).mono (ha.le hk hnow)).touch hmove
    rw [← hnote, hlog, hclosed]

theorem run {t₀ : ℤ} {calls : List Call}
    (hforward : Along (Chronicle.step k) (Chronicle.Forward k) (.init c t₀) calls)
    (hrun : Lib.run (Chronicle.step k) (.init c t₀) calls = some s) : BackedInv c k s :=
  run_inv_along (fun _ _ _ h ha hs => h.step ha hs) hforward ⟨rfl, nofun⟩ hrun

end BackedInv

theorem EntryMove.opens (hm : EntryMove cfg budget now e log e' log')
    (hbefore : e.state ≠ .stateOpen) (hopen : e'.state = .stateOpen) :
    log' = .failed now :: log ∨ log' = .tripped (closedAt log) now :: .reported false :: log := by
  cases hm with
  | ignored => exact absurd hopen hbefore
  | passed => exact absurd ((e.reset_state cfg now).symm.trans hopen) hbefore
  | leased => cases hopen
  | closed => cases hopen
  | failed => exact .inl rfl
  | succeeded => exact absurd hopen hbefore
  | counted => exact absurd ((e.reset_state cfg now).symm.trans hopen) hbefore
  | tripped => exact .inr rfl

/-- A call that opens the circuit is a Report of the key, a failed probe or
the end of a stretch, and it opens it for the cooldown of the exponent of the
history, that Report included. -/
theorem exponent_follows_history (c : AcceptedConfig) (k : String) (t₀ : ℤ) (calls : List Call)
    (s : Chronicle) (hrun : Lib.run (Chronicle.step k) (.init c t₀) calls = some s)
    (hforward : Along (Chronicle.step k) (Chronicle.Forward k) (.init c t₀) calls)
    (a : Call) (s' : Chronicle) (hstep : s.step k a = some s') (ha : s.Forward k a)
    (e' : MemEntry) (hafter : s'.gate.keys.lookup k = some e') (hopen : e'.state = .stateOpen)
    (hbefore : ∀ e, s.gate.keys.lookup k = some e → e.state ≠ .stateOpen) :
    ∃ success now jitterSample, a = .report k success now jitterSample ∧
      (s'.log = .failed now :: s.log ∨
        s'.log = .tripped (closedAt s.log) now :: .reported false :: s.log) ∧
      e'.n = exponent c.toConfig s'.log ∧
      e'.openUntil = now + c.cooldownDuration (exponent c.toConfig s'.log) jitterSample := by
  have hinv := BackedInv.run hforward hrun
  have hn := ((hinv.step ha hstep).backed e' hafter).away (by rw [hopen]; nofun)
  have hmove := s.gate.keyMove k a
  have hgate : s'.gate = s.gate.call a := by
    injection hstep with hstep
    rw [← hstep]
  rw [← hgate, hafter] at hmove
  obtain ⟨success, now, jitterSample, rfl, huntil⟩ :=
    Gate.opened_by_report hmove rfl hopen hbefore
  rw [hinv.settings, hn] at huntil
  refine ⟨success, now, jitterSample, rfl, ?_, hn, huntil⟩
  have hkey := Chronicle.step_keyStep hstep
  rw [hafter] at hkey
  generalize hentry : s.gate.keys.lookup k = before at hkey
  generalize s'.log = log' at hkey ⊢
  cases hkey with
  | kept => exact absurd hopen (hbefore _ hentry)
  | created => cases hopen
  | @worked _ e _ _ _ _ hnow hmove =>
    injection hnow with hnow
    subst hnow
    have hne : (e.touch s.gate.cfg now).state ≠ .stateOpen := hbefore e hentry
    exact hmove.opens hne hopen

/-- One failure trips, and the longest cooldown is ten times the first. -/
def tenfold : AcceptedConfig where
  failureRatio := 1 / 2
  tripFailures := 1
  baseCooldown := second
  maxCooldown := 10 * second
  jitter := 0
  ttl := 60 * second
  accepted := ⟨⟨1 / 2, 1, second, 10 * second, 0, 60 * second⟩, by decide +kernel⟩

/-- The key trips, its first probe fails, the second succeeds at `closing`,
and an Allow `seen` later is the last call. -/
def probedTwice (closing seen : ℤ) : List Call :=
  [.allow "k" (closing - 30 * second) anyKey,
    .report "k" false (closing - 30 * second) noJitter,
    .allow "k" (closing - 20 * second) anyKey,
    .report "k" false (closing - 20 * second) noJitter,
    .allow "k" (closing - 10 * second) anyKey, .report "k" true closing noJitter,
    .allow "k" (closing + seen) anyKey]

/-- An early Allow sees nothing, and the trip 20 seconds after the closing
forgets the failed probe all the same. -/
theorem exponent_follows_history_unseen : ∃ s s' e',
    Lib.run (Chronicle.step "k") (.init tenfold 0) (probedTwice (40 * second) second) = some s ∧
    s.step "k" (.report "k" false (60 * second) noJitter) = some s' ∧
    s'.gate.keys.lookup "k" = some e' ∧ exponent tenfold.toConfig s.log = 1 ∧
    exponent tenfold.toConfig s'.log = 0 ∧
    ∃ success now jitterSample,
      Call.report "k" false (60 * second) noJitter = .report "k" success now jitterSample ∧
      (s'.log = .failed now :: s.log ∨
        s'.log = .tripped (closedAt s.log) now :: .reported false :: s.log) ∧
      e'.n = exponent tenfold.toConfig s'.log ∧
      e'.openUntil =
        now + tenfold.cooldownDuration (exponent tenfold.toConfig s'.log) jitterSample :=
  ⟨_, _, _, rfl, rfl, rfl, by decide +kernel, by decide +kernel,
    exponent_follows_history tenfold "k" 0 (probedTwice (40 * second) second) _ rfl
      (by decide +kernel) _ _ rfl (by decide +kernel) _ rfl (by decide +kernel)
      (by rintro e he; injection he with he; subst he; decide +kernel)⟩

/-- Closed at the zero time, CLOSED for twice `MaxCooldown`, and the trip
still waits for the probe that failed before. -/
theorem closed_at_zero_keeps_n : ∃ s s' e',
    ((probedTwice 0 second).filterMap Call.now? ++ [20 * second]).Pairwise (· ≤ ·) ∧
    Lib.run (Chronicle.step "k") (.init tenfold (-40 * second)) (probedTwice 0 second) =
      some s ∧
    s.step "k" (.report "k" false (20 * second) noJitter) = some s' ∧
    s'.log = .tripped 0 (20 * second) :: .reported false :: s.log ∧
    exponent tenfold.toConfig s'.log = 0 ∧ s'.gate.keys.lookup "k" = some e' ∧
    e'.state = .stateOpen ∧ e'.n = 1 ∧
    e'.openUntil ≠ 20 * second + tenfold.cooldownDuration 0 noJitter :=
  ⟨_, _, _, by decide +kernel, rfl, rfl, by decide +kernel, by decide +kernel, rfl,
    by decide +kernel, by decide +kernel, by decide +kernel⟩

end MiddlewareUtils.BackendBackoff
