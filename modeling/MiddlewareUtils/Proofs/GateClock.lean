import MiddlewareUtils.BackendBackoff.Callers

/-!
# When the gate's deadlines follow the clock

`Allow` and `Report` read the clock and then wait for the lock. A caller
that is held up in between brings an old reading to an entry that newer
ones have been written to, and writes its deadlines from it: `expireAt`
goes back, and a circuit can be opened until a time that has partly passed.
`stale_reading_rewinds` is that run.

It takes two calls on one key that reach the lock in the other order than
they read the clock, and read it differently. As long as the calls on each
key take the lock in the order of their readings, equal ones in either order,
no deadline is computed from a reading older than one already applied. The
order condition is about who read first: readings are numbered, the clock
does not go back, and so of any two readings anybody has made the later one
is not the smaller (`ReadingsInv`).
-/

namespace MiddlewareUtils.BackendBackoff

open Lib Function

namespace Callers

/-- A call that takes the lock has read the clock after every call on the
same key that wrote the entry before it, or has read the same. -/
def inOrder (s : Callers) : Action → Bool
  | .lock p _ _ =>
    match s.procs p with
    | some ⟨key, pc⟩ =>
      match pc.reading with
      | some r => (s.applied key).all fun r' => decide (r'.1 ≤ r.1 ∨ r'.2 = r.2)
      | none => true
    | none => true
  | _ => true

theorem inOrder_lock {s : Callers} {p : ℕ} {first : Entries → String}
    {jitterSample : Config.Sample} {key : String} {pc : Pc} {r : Reading}
    (h : s.inOrder (.lock p first jitterSample) = true) (hp : s.procs p = some ⟨key, pc⟩)
    (hr : pc.reading = some r) : ∀ r' ∈ s.applied key, r'.1 ≤ r.1 ∨ r'.2 = r.2 := by
  rw [inOrder, hp] at h
  dsimp only at h
  rw [hr] at h
  intro r' hr'
  exact of_decide_eq_true (List.all_eq_true.mp h r' hr')

/-- What a step does to time: a call never works with a reading older than
one its key has seen, `expireAt` never decreases, and a key that becomes
OPEN stays so for its cooldown from the latest reading its entry has seen. -/
structure Forward (s : Callers) (a : Action) (s' : Callers) : Prop where
  reading : ∀ p first jitterSample key pc r, a = .lock p first jitterSample →
    s.procs p = some ⟨key, pc⟩ → pc.reading = some r → ∀ r' ∈ s.applied key, r'.2 ≤ r.2
  expireAt : ∀ k e e', s.gate.keys.lookup k = some e → s'.gate.keys.lookup k = some e' →
    e.expireAt ≤ e'.expireAt
  openUntil : ∀ p first jitterSample k e', a = .lock p first jitterSample →
    s'.gate.keys.lookup k = some e' → e'.state = .stateOpen →
    (∀ e, s.gate.keys.lookup k = some e → e.state ≠ .stateOpen) →
    ∀ r ∈ s.applied k, r.2 + s.gate.cfg.cooldownDuration e'.n jitterSample ≤ e'.openUntil

/-! ## Readings -/

def made (s : Callers) (r : Reading) : Prop :=
  (∃ p proc, s.procs p = some proc ∧ proc.pc.reading = some r) ∨ ∃ k, r ∈ s.applied k

structure ReadingsInv (s : Callers) : Prop where
  past : ∀ r, s.made r → r.1 < s.reads ∧ r.2 ≤ s.clock
  mono : ∀ r r', s.made r → s.made r' → r.1 ≤ r'.1 → r.2 ≤ r'.2

theorem made_setProc {s : Callers} {p : ℕ} {proc : Proc} {r : Reading}
    (h : (s.setProc p proc).made r) : s.made r ∨ proc.pc.reading = some r := by
  rcases h with ⟨q, proc', hq, hr⟩ | h
  · rcases update_eq_some hq with ⟨-, rfl⟩ | ⟨-, hq⟩
    · exact .inr hr
    · exact .inl (.inl ⟨q, proc', hq, hr⟩)
  · exact .inl (.inr h)

theorem Pc.served_reading (admits : Bool) (pc : Pc) : (pc.served admits).reading = none := by
  cases pc with
  | allowLock r => cases admits <;> rfl
  | _ => rfl

theorem made_serve {s : Callers} {p : ℕ} {key : String} {pc : Pc} {r r' : Reading} {c : Call}
    (hp : s.procs p = some ⟨key, pc⟩) (hr : pc.reading = some r)
    (h : (s.serve p key pc r c).made r') : s.made r' := by
  rcases h with ⟨q, proc, hq, hr'⟩ | ⟨k, hk⟩
  · rcases update_eq_some hq with ⟨-, rfl⟩ | ⟨-, hq⟩
    · rw [Pc.served_reading] at hr'
      exact nomatch hr'
    · exact .inl ⟨q, proc, hq, hr'⟩
  · rw [serve] at hk
    dsimp only at hk
    split at hk
    · by_cases hkk : k = key
      · subst hkk
        rw [update_self] at hk
        rcases List.mem_cons.mp hk with rfl | hk
        · exact .inl ⟨p, _, hp, hr⟩
        · exact .inr ⟨k, hk⟩
      · rw [update_of_ne hkk] at hk
        exact .inr ⟨k, hk⟩
    · exact .inr ⟨k, hk⟩

namespace ReadingsInv

theorem frame {s s' : Callers} (hi : ReadingsInv s) (hreads : s'.reads = s.reads)
    (hclock : s'.clock = s.clock) (hmade : ∀ r, s'.made r → s.made r) : ReadingsInv s' := by
  refine ⟨fun r hr => ?_, fun r r' hr hr' => hi.mono r r' (hmade r hr) (hmade r' hr')⟩
  rw [hreads, hclock]
  exact hi.past r (hmade r hr)

theorem next {s s' : Callers} {now : ℤ} (hi : ReadingsInv s) (hle : s.clock ≤ now)
    (hreads : s'.reads = s.reads + 1) (hclock : s'.clock = now)
    (hmade : ∀ r, s'.made r → s.made r ∨ some (s.reads, now) = some r) : ReadingsInv s' := by
  refine ⟨fun r hr => ?_, fun r r' hr hr' hrr => ?_⟩
  · rw [hreads, hclock]
    rcases hmade r hr with hr | hr
    · have := hi.past r hr
      omega
    · injection hr with hr
      subst hr
      exact ⟨Nat.lt_succ_self _, le_refl _⟩
  · rcases hmade r hr with hr | hr <;> rcases hmade r' hr' with hr' | hr'
    · exact hi.mono r r' hr hr' hrr
    · injection hr' with hr'
      subst hr'
      exact le_trans (hi.past r hr).2 hle
    · injection hr with hr
      subst hr
      have := (hi.past r' hr').1
      omega
    · injection hr with hr
      injection hr' with hr'
      rw [← hr, ← hr']

theorem step {s s' : Callers} {a : Action} (hi : ReadingsInv s) (hm : Move s a s') :
    ReadingsInv s' := by
  cases hm with
  | called | strayed =>
    exact hi.frame rfl rfl fun r hr => (made_setProc hr).resolve_right nofun
  | ended hp => exact hi.frame rfl rfl fun r hr => (made_setProc hr).resolve_right nofun
  | readAllow hle hp => exact hi.next hle rfl rfl fun r hr => made_setProc hr
  | readReport hle hp => exact hi.next hle rfl rfl fun r hr => made_setProc hr
  | allowed hp => exact hi.frame rfl rfl fun r hr => made_serve hp rfl hr
  | reported hp => exact hi.frame rfl rfl fun r hr => made_serve hp rfl hr
  | closed => exact hi.frame rfl rfl fun r hr => hr

end ReadingsInv

end Callers

/-! ## Deadlines -/

namespace MemEntry

variable (cfg : Config) (now : ℤ) (e : MemEntry)

theorem reset_expireAt : (e.resetNIfClosedLongEnough cfg now).expireAt = e.expireAt := by
  unfold resetNIfClosedLongEnough
  split
  · rfl
  · split <;> rfl

theorem allow_expireAt : ((e.touch cfg now).allow cfg now).1.expireAt = now + cfg.ttl := by
  unfold allow
  split
  · exact reset_expireAt cfg now _
  · split <;> rfl
  · split <;> rfl

theorem report_expireAt (budget : ℚ) (success : Bool) (jitterSample : Config.Sample) :
    ((e.touch cfg now).report cfg budget now success jitterSample).expireAt = now + cfg.ttl := by
  unfold report
  split
  · rfl
  · split
    · rfl
    · split <;> rfl
  · split
    · rfl
    · dsimp only
      split
      · exact reset_expireAt cfg now _
      · exact reset_expireAt cfg now _

end MemEntry

namespace Callers

structure ClockInv (s : Callers) : Prop where
  readings : ReadingsInv s
  stamped : ∀ k e, s.gate.keys.lookup k = some e →
    ∃ r ∈ s.applied k, e.expireAt = r.2 + s.gate.cfg.ttl

variable {s s' : Callers} {a : Action} {p : ℕ} {key k : String} {pc : Pc} {r : Reading} {c : Call}

theorem expireAt_call {after : Option MemEntry} {admitted : Bool} {e : MemEntry}
    (hc : c.now? = some r.2) (hmove : s.gate.KeyMove k c after admitted) (he : after = some e) :
    s.gate.keys.lookup k = some e ∨ e.expireAt = r.2 + s.gate.cfg.ttl := by
  cases hmove with
  | kept => exact .inl he
  | dropped => exact nomatch he
  | allowed hfound hlive =>
    injection he with he
    injection hc with hc
    rw [← he, MemEntry.allow_expireAt, hc]
    exact .inr rfl
  | created hgone =>
    injection he with he
    injection hc with hc
    rw [← he, MemEntry.reset_expireAt, hc]
    exact .inr rfl
  | reported hfound =>
    injection he with he
    injection hc with hc
    rw [← he, MemEntry.report_expireAt, hc]
    exact .inr rfl

theorem ClockInv.serve (hi : ClockInv s) (hp : s.procs p = some ⟨key, pc⟩)
    (hr : pc.reading = some r) (hc : c.now? = some r.2) (hkey : c.key? = some key) :
    ClockInv (s.serve p key pc r c) := by
  refine ⟨hi.readings.frame rfl rfl fun r' hr' => made_serve hp hr hr', ?_⟩
  intro k e he
  have he' : (s.gate.call c).keys.lookup k = some e := he
  have hcfg : (s.serve p key pc r c).gate.cfg = s.gate.cfg := s.gate.call_cfg c
  have hmove := s.gate.keyMove k c
  rw [hcfg]
  by_cases hk : k = key
  · subst hk
    have happ : (s.serve p k pc r c).applied k = r :: s.applied k := by
      rw [Callers.serve]
      dsimp only
      rw [if_pos (by rw [he']; rfl), update_self]
    rw [happ]
    rcases expireAt_call hc hmove he' with hold | hnew
    · obtain ⟨r', hr', heq⟩ := hi.stamped k e hold
      exact ⟨r', List.mem_cons_of_mem r hr', heq⟩
    · exact ⟨r, List.mem_cons_self, hnew⟩
  · have happ : (s.serve p key pc r c).applied k = s.applied k := by
      rw [Callers.serve]
      dsimp only
      split
      · exact update_of_ne hk ..
      · rfl
    rw [happ]
    rcases hmove.other (by rw [hkey]; exact fun h => hk (Option.some.inj h).symm) with
      hold | hnone
    · exact hi.stamped k e (hold ▸ he')
    · exact nomatch hnone.symm.trans he'

theorem ClockInv.step (hi : ClockInv s) (hm : Move s a s') : ClockInv s' := by
  have hreadings := hi.readings.step hm
  cases hm with
  | called | strayed => exact ⟨hreadings, hi.stamped⟩
  | ended hp => exact ⟨hreadings, hi.stamped⟩
  | readAllow hle hp => exact ⟨hreadings, hi.stamped⟩
  | readReport hle hp => exact ⟨hreadings, hi.stamped⟩
  | allowed hp => exact hi.serve hp rfl rfl rfl
  | reported hp => exact hi.serve hp rfl rfl rfl
  | closed =>
    refine ⟨hreadings, fun k e he => ?_⟩
    exact nomatch (AList.lookup_empty k).symm.trans he

theorem ClockInv.reading_le (hi : ClockInv s) (hp : s.procs p = some ⟨key, pc⟩)
    (hr : pc.reading = some r) (horder : ∀ r' ∈ s.applied key, r'.1 ≤ r.1 ∨ r'.2 = r.2) :
    ∀ r' ∈ s.applied key, r'.2 ≤ r.2 := by
  intro r' hr'
  rcases horder r' hr' with hbefore | hequal
  · exact hi.readings.mono r' r (.inr ⟨key, hr'⟩) (.inl ⟨p, _, hp, hr⟩) hbefore
  · exact hequal.le

theorem ClockInv.init (cfg : AcceptedConfig) (t₀ : ℤ) : ClockInv (init cfg t₀) := by
  have hmade : ∀ r, ¬ (Callers.init cfg t₀).made r := by
    rintro r (⟨p, proc, hp, _⟩ | ⟨k, hk⟩)
    · exact nomatch hp
    · exact nomatch hk
  refine ⟨⟨fun r hr => absurd hr (hmade r), fun r _ hr => absurd hr (hmade r)⟩, ?_⟩
  intro k e he
  exact nomatch (AList.lookup_empty k).symm.trans he

theorem clockInv_of_run {cfg : AcceptedConfig} {t₀ : ℤ} {as : List Action}
    (hrun : run step (init cfg t₀) as = some s) : ClockInv s :=
  run_inv (fun _ _ _ hi h => hi.step (step_move h)) (ClockInv.init cfg t₀) hrun

theorem ClockInv.expireAt_le {e e' : MemEntry} (hi : ClockInv s) (hc : c.now? = some r.2)
    (hkey : c.key? = some key) (hle : ∀ r' ∈ s.applied key, r'.2 ≤ r.2)
    (he : s.gate.keys.lookup k = some e) (he' : (s.gate.call c).keys.lookup k = some e') :
    e.expireAt ≤ e'.expireAt := by
  have hmove := s.gate.keyMove k c
  by_cases hk : k = key
  · subst hk
    rcases expireAt_call hc hmove he' with hold | hnew
    · rw [Option.some.inj (he.symm.trans hold)]
    · obtain ⟨r', hr', heq⟩ := hi.stamped k e he
      have := hle r' hr'
      omega
  · rcases hmove.other (by rw [hkey]; exact fun h => hk (Option.some.inj h).symm) with
      hold | hnone
    · rw [Option.some.inj (he.symm.trans (hold.symm.trans he'))]
    · exact nomatch hnone.symm.trans he'

theorem ClockInv.forward_serve {first : Entries → String} {jitterSample : Config.Sample}
    (hi : ClockInv s) (hp : s.procs p = some ⟨key, pc⟩) (hr : pc.reading = some r)
    (hcall : pc.call key first jitterSample = some c) (hc : c.now? = some r.2)
    (hkey : c.key? = some key) (horder : s.inOrder (.lock p first jitterSample) = true) :
    Forward s (.lock p first jitterSample) (s.serve p key pc r c) := by
  have hle := hi.reading_le hp hr (inOrder_lock horder hp hr)
  refine ⟨?_, fun k e e' he he' => hi.expireAt_le hc hkey hle he he', ?_⟩
  · intro p' first' sample' key' pc' r' ha hp' hr'
    injection ha with ha
    subst ha
    rw [hp] at hp'
    injection hp' with hp'
    injection hp' with hk hpc
    subst hk hpc
    rw [hr] at hr'
    injection hr' with hr'
    exact hr' ▸ hle
  · intro p' first' sample' k e' ha he' hopen hbefore r' hr'
    injection ha with _ _ hs
    subst hs
    obtain ⟨success, now, sample, rfl, huntil⟩ :=
      Gate.opened_by_report (s.gate.keyMove k c) he' hopen hbefore
    injection hkey with hkey
    injection hc with hc
    subst hkey hc
    -- A Report's call carries the sample of the step.
    have hsample : sample = jitterSample := by
      cases pc with
      | reportLock success' r₁ =>
        injection hcall with hcall
        injection hcall with _ _ _ hs
        exact hs.symm
      | allowLock r₁ =>
        injection hcall with hcall
        exact nomatch hcall
      | allowRead | denied | admitted | reportRead | finished => exact nomatch hr
    have := hle r' hr'
    rw [huntil, hsample]
    omega

theorem ClockInv.forward (hi : ClockInv s) (horder : s.inOrder a = true) (hm : Move s a s') :
    Forward s a s' := by
  have hidle : s'.gate = s.gate → (∀ p first jitterSample, a ≠ .lock p first jitterSample) →
      Forward s a s' := by
    intro hgate hne
    refine ⟨fun p first sample _ _ _ ha => absurd ha (hne p first sample), ?_,
      fun p first sample _ _ ha => absurd ha (hne p first sample)⟩
    intro k e e' he he'
    rw [hgate] at he'
    rw [Option.some.inj (he.symm.trans he')]
  cases hm with
  | called => exact hidle rfl nofun
  | strayed => exact hidle rfl nofun
  | ended hp => exact hidle rfl nofun
  | readAllow hle hp => exact hidle rfl nofun
  | readReport hle hp => exact hidle rfl nofun
  | allowed hp => exact hi.forward_serve hp rfl rfl rfl rfl horder
  | reported hp => exact hi.forward_serve hp rfl rfl rfl rfl horder
  | closed =>
    refine ⟨fun _ _ _ _ _ _ ha => (nomatch ha), fun k e e' _ he' => ?_,
      fun _ _ _ _ _ ha => (nomatch ha)⟩
    exact nomatch (AList.lookup_empty k).symm.trans he'

end Callers

open Callers

/-- In every run of any number of concurrent calls, with a clock that does
not go back: a step keeps time going forward for every key, provided the
call that takes the lock in it read the clock after the calls that wrote the
entry of its key before, or read the same. -/
theorem gate_time_forward (c : AcceptedConfig) (t₀ : ℤ) (as : List Action) (s : Callers)
    (hrun : run Callers.step (Callers.init c t₀) as = some s) (a : Action) (s' : Callers)
    (horder : s.inOrder a = true) (hstep : s.step a = some s') : Callers.Forward s a s' :=
  (clockInv_of_run hrun).forward horder (step_move hstep)

/-- An attempt fails and reports, in order. -/
def failedAttempt : List Action :=
  [.allow "k", .read 0 1, .lock 0 anyKey noJitter, .outcome 0 false, .read 0 2]

theorem gate_time_forward_failedAttempt :
    ∃ s s', run Callers.step (Callers.init oneFailure 0) failedAttempt = some s ∧
      s.step (.lock 0 anyKey noJitter) = some s' ∧
      (s'.gate.keys.lookup "k").any (·.state = .stateOpen) = true ∧
      Callers.Forward s (.lock 0 anyKey noJitter) s' :=
  ⟨_, _, rfl, rfl, by decide +kernel,
    gate_time_forward oneFailure 0 failedAttempt _ rfl (.lock 0 anyKey noJitter) _
      (by decide +kernel) rfl⟩

/-- Two attempts are admitted. The first fails and reads the clock at 2 for
its Report. Nine seconds later the second one reads it too, reports a
success and so writes the entry. -/
def heldUpReport : List Action :=
  [.allow "k", .read 0 1, .lock 0 anyKey noJitter, .allow "k", .read 1 1, .lock 1 anyKey noJitter,
    .outcome 0 false, .read 0 2,
    .outcome 1 true, .read 1 (9 * second), .lock 1 anyKey noJitter]

/-- Then the first Report gets the lock. It trips the key with its old
reading: `expireAt` goes back, and the circuit is open until a time that has
passed when it is opened. -/
theorem stale_reading_rewinds :
    ∃ s s' e e', run Callers.step (Callers.init oneFailure 0) heldUpReport = some s ∧
      s.step (.lock 0 anyKey noJitter) = some s' ∧
      s.gate.keys.lookup "k" = some e ∧ s'.gate.keys.lookup "k" = some e' ∧
      e'.expireAt < e.expireAt ∧ e.state = .stateClosed ∧ e'.state = .stateOpen ∧
      e'.openUntil < s.clock ∧
      ∃ r ∈ s.applied "k", e'.openUntil < r.2 + oneFailure.cooldownDuration e'.n noJitter :=
  ⟨_, _, _, _, rfl, rfl, rfl, rfl, by decide +kernel, by decide +kernel, by decide +kernel,
    by decide +kernel, (3, 9 * second), by decide +kernel, by decide +kernel⟩

end MiddlewareUtils.BackendBackoff
