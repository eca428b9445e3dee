import MiddlewareUtils.BackendBackoff.Callers

/-!
# Whose Report decides a HALF-OPEN circuit

A Report names a key and nothing else. If the entry is HALF-OPEN with a
probe outstanding, the next Report on the key is taken for the probe's, from
whichever attempt it comes: one that was admitted while the key was still
CLOSED and took its time, or one whose lease has run out and was taken over
since. `slow_report_closes` is the first: a success from before the trip
closes the circuit while the probe is still under way.

It takes an attempt that is still outstanding when another one is let into
HALF-OPEN. Where every earlier attempt on the key has been reported by then,
the probe is the only attempt outstanding for as long as the key is
HALF-OPEN, since nobody else is admitted before the lease runs out; so every
Report that meets the circuit HALF-OPEN is the probe's. That is the
invariant `ProbeInv`, and it needs that callers report attempts they made.
-/

namespace MiddlewareUtils.BackendBackoff

open Lib

/-- Callers report their own attempts, once each. -/
def Action.keepsRules : Action → Bool
  | .stray _ _ => false
  | _ => true

namespace Callers

def settled (s : Callers) (k : String) : Bool :=
  (List.range s.next).all fun q =>
    match s.procs q with
    | some proc => !(decide (proc.key = k) && proc.pc.outstanding)
    | none => true

/-- An Allow that lets its attempt into HALF-OPEN finds no attempt on the
key outstanding. -/
def quiet (s : Callers) : Action → Bool
  | .lock p first _ =>
    match s.procs p with
    | some ⟨key, .allowLock r⟩ => !s.leases key (.allow key r.2 first) || s.settled key
    | _ => true
  | _ => true

theorem quiet_lock {s : Callers} {p : ℕ} {first : Entries → String}
    {jitterSample : Config.Sample} {key : String} {r : Reading}
    (h : s.quiet (.lock p first jitterSample) = true)
    (hp : s.procs p = some ⟨key, .allowLock r⟩)
    (hleases : s.leases key (.allow key r.2 first) = true) : s.settled key = true := by
  rw [quiet, hp] at h
  dsimp only at h
  rw [hleases] at h
  exact h

theorem not_outstanding_of_settled {s : Callers} {k : String} {q : ℕ} {proc : Proc}
    (h : s.settled k = true) (hq : q < s.next) (hproc : s.procs q = some proc)
    (hk : proc.key = k) : proc.pc.outstanding = false := by
  have hall := List.all_eq_true.mp h q (List.mem_range.mpr hq)
  rw [hproc] at hall
  simpa [hk] using hall

end Callers

/-! ## What a call does to the state of an entry -/

namespace MemEntry

variable {cfg : Config} {now : ℤ} {e : MemEntry}

theorem allow_half (h : e.state = .stateHalfOpen) : (e.allow cfg now).1.state = .stateHalfOpen := by
  rw [allow, h]
  dsimp only
  split
  · exact h
  · rfl

theorem allow_denied (h : (e.allow cfg now).2.1 = false) : (e.allow cfg now).1.state = e.state := by
  unfold allow at h ⊢
  cases hstate : e.state with
  | stateClosed =>
    rw [hstate] at h
    exact nomatch h
  | stateOpen =>
    rw [hstate] at h
    dsimp only at h ⊢
    split at h
    next hlt => rw [if_pos hlt]; exact hstate
    · exact nomatch h
  | stateHalfOpen =>
    rw [hstate] at h
    dsimp only at h ⊢
    split at h
    next hlt => rw [if_pos hlt]; exact hstate
    · exact nomatch h

variable {budget : ℚ} {success : Bool} {jitterSample : Config.Sample}

theorem half_of_report (h : (e.report cfg budget now success jitterSample).state = .stateHalfOpen) :
    e.state = .stateHalfOpen := by
  cases hstate : e.state with
  | stateHalfOpen => rfl
  | stateOpen =>
    rw [report, hstate] at h
    exact hstate.symm.trans h
  | stateClosed =>
    rw [report, hstate] at h
    dsimp only at h
    cases success with
    | true => cases h
    | false =>
      rw [if_neg Bool.false_ne_true] at h
      split at h
      · cases h
      · exact hstate.symm.trans ((e.reset_state cfg now).symm.trans h)

theorem report_of_half (h : e.state = .stateHalfOpen)
    (hout : (e.report cfg budget now success jitterSample).state ≠ .stateHalfOpen) :
    (e.report cfg budget now success jitterSample).state = .stateClosed ∨
      (e.report cfg budget now success jitterSample).state = .stateOpen ∧
        (e.report cfg budget now success jitterSample).n = e.n + 1 := by
  rw [report, h] at hout ⊢
  dsimp only at hout ⊢
  by_cases hprobe : e.probeOutstanding = false
  · rw [if_pos hprobe] at hout
    exact absurd h hout
  · rw [if_neg hprobe]
    cases success with
    | true => exact .inl rfl
    | false => exact .inr ⟨rfl, rfl⟩

end MemEntry

namespace Callers

variable {s s' : Callers} {a : Action} {p : ℕ} {key k : String}

structure ProbeInv (s : Callers) : Prop where
  bound : ∀ q proc, s.procs q = some proc → q < s.next
  probe : ∀ k e, s.gate.keys.lookup k = some e → e.state = .stateHalfOpen →
    ∃ p, s.lease k = some p ∧
      ∀ q proc, s.procs q = some proc → proc.key = k → proc.pc.outstanding = true → q = p

namespace ProbeInv

theorem setProc (hi : ProbeInv s) {pc pc' : Pc} (hp : s.procs p = some ⟨key, pc⟩)
    (hpc : pc'.outstanding = true → pc.outstanding = true) :
    ProbeInv (s.setProc p ⟨key, pc'⟩) := by
  refine ⟨fun q proc hq => ?_, fun k e he hhalf => ?_⟩
  · rcases update_eq_some hq with ⟨rfl, -⟩ | ⟨-, hq⟩
    · exact hi.bound q _ hp
    · exact hi.bound q proc hq
  · obtain ⟨p', hlease, hall⟩ := hi.probe k e he hhalf
    refine ⟨p', hlease, fun q proc hq hk hout => ?_⟩
    rcases update_eq_some hq with ⟨rfl, rfl⟩ | ⟨-, hq⟩
    · exact hall q _ hp hk (hpc hout)
    · exact hall q proc hq hk hout

theorem spawn (hi : ProbeInv s) {pc : Pc} (hpc : pc.outstanding = false) :
    ProbeInv (s.spawn ⟨key, pc⟩) := by
  refine ⟨fun q proc hq => ?_, fun k e he hhalf => ?_⟩
  · rcases update_eq_some hq with ⟨rfl, -⟩ | ⟨-, hq⟩
    · exact Nat.lt_succ_self _
    · exact Nat.lt_succ_of_lt (hi.bound q proc hq)
  · obtain ⟨p', hlease, hall⟩ := hi.probe k e he hhalf
    refine ⟨p', hlease, fun q proc hq hk hout => ?_⟩
    rcases update_eq_some hq with ⟨rfl, rfl⟩ | ⟨-, hq⟩
    · exact nomatch hpc.symm.trans hout
    · exact hall q proc hq hk hout

theorem bound_serve (hi : ProbeInv s) {pc : Pc} {r : Reading} {c : Call}
    (hp : s.procs p = some ⟨key, pc⟩) (q : ℕ) (proc : Proc)
    (hq : (s.serve p key pc r c).procs q = some proc) : q < s.next := by
  rcases update_eq_some hq with ⟨rfl, -⟩ | ⟨-, hq⟩
  · exact hi.bound q _ hp
  · exact hi.bound q proc hq

theorem probe_serve (hi : ProbeInv s) {pc : Pc} {r : Reading} {c : Call} {e : MemEntry}
    (hlease : (s.serve p key pc r c).lease k = s.lease k)
    (hpc : (pc.served (s.gate.admits key c)).outstanding = true → key ≠ k)
    (he : s.gate.keys.lookup k = some e) (hhalf : e.state = .stateHalfOpen) :
    ∃ p', (s.serve p key pc r c).lease k = some p' ∧
      ∀ q proc, (s.serve p key pc r c).procs q = some proc → proc.key = k →
        proc.pc.outstanding = true → q = p' := by
  obtain ⟨p', hlease', hall⟩ := hi.probe k e he hhalf
  refine ⟨p', hlease.trans hlease', fun q proc hq hk hout => ?_⟩
  rcases update_eq_some hq with ⟨rfl, rfl⟩ | ⟨-, hq⟩
  · exact absurd hk (hpc hout)
  · exact hall q proc hq hk hout

theorem lease_serve {pc : Pc} {r : Reading} {c : Call} (h : k ≠ key ∨ s.leases key c = false) :
    (s.serve p key pc r c).lease k = s.lease k := by
  rw [serve]
  dsimp only
  split
  next hleases =>
    rcases h with h | h
    · exact Function.update_of_ne h ..
    · exact nomatch hleases.symm.trans h
  · rfl

theorem allowed (hi : ProbeInv s) {r : Reading} {first : Entries → String}
    {jitterSample : Config.Sample} (hp : s.procs p = some ⟨key, .allowLock r⟩)
    (hquiet : s.quiet (.lock p first jitterSample) = true) :
    ProbeInv (s.serve p key (.allowLock r) r (.allow key r.2 first)) := by
  refine ⟨hi.bound_serve hp, fun k e he hhalf => ?_⟩
  have he' : (s.gate.call (.allow key r.2 first)).keys.lookup k = some e := he
  have hmove := s.gate.keyMove k (.allow key r.2 first)
  by_cases hk : k = key
  · subst hk
    cases hadm : s.gate.admits k (.allow k r.2 first) with
    | true =>
      -- The attempt becomes the probe, and it is the only one.
      have hleases : s.leases k (.allow k r.2 first) = true := by
        rw [leases, hadm, he']
        simp [hhalf]
      have hsettled := quiet_lock hquiet hp hleases
      refine ⟨p, ?_, fun q proc hq hqk hout => ?_⟩
      · rw [serve]
        dsimp only
        rw [if_pos hleases, Function.update_self]
      · rcases update_eq_some hq with ⟨rfl, -⟩ | ⟨-, hq⟩
        · rfl
        · have := not_outstanding_of_settled hsettled (hi.bound q proc hq) hq hqk
          exact nomatch this.symm.trans hout
    | false =>
      have hleases : s.leases k (.allow k r.2 first) = false := by rw [leases, hadm]; rfl
      have hpc : (Pc.served (s.gate.admits k (.allow k r.2 first)) (.allowLock r)).outstanding =
          true → k ≠ k := by
        rw [hadm]
        exact nofun
      rw [he', hadm] at hmove
      generalize ho : some e = o at hmove
      generalize hb : false = b at hmove
      cases hmove with
      | kept => exact hi.probe_serve (lease_serve (.inr hleases)) hpc ho.symm hhalf
      | dropped => exact nomatch ho
      | @allowed _ _ e₀ hfound hlive =>
        injection ho with ho
        have hstate := MemEntry.allow_denied hb.symm
        rw [← ho] at hstate
        exact hi.probe_serve (lease_serve (.inr hleases)) hpc hfound (hstate.symm.trans hhalf)
      | created hgone => exact nomatch hb
  · rcases hmove.other (fun h => hk (Option.some.inj h).symm) with hold | hnone
    · exact hi.probe_serve (lease_serve (.inl hk)) (fun _ => Ne.symm hk) (hold ▸ he') hhalf
    · exact nomatch hnone.symm.trans he'

theorem reported (hi : ProbeInv s) {success : Bool} {r : Reading} {jitterSample : Config.Sample}
    (hp : s.procs p = some ⟨key, .reportLock success r⟩) :
    ProbeInv (s.serve p key (.reportLock success r) r
      (.report key success r.2 jitterSample)) := by
  refine ⟨hi.bound_serve hp, fun k e he hhalf => ?_⟩
  have he' : (s.gate.call (.report key success r.2 jitterSample)).keys.lookup k = some e := he
  have hlease : (s.serve p key (.reportLock success r) r
      (.report key success r.2 jitterSample)).lease k = s.lease k := lease_serve (.inr rfl)
  have hmove := s.gate.keyMove k (.report key success r.2 jitterSample)
  rw [he'] at hmove
  generalize ho : some e = o at hmove
  generalize s.gate.admits k (.report key success r.2 jitterSample) = b at hmove
  cases hmove with
  | kept => exact hi.probe_serve hlease nofun ho.symm hhalf
  | dropped => exact nomatch ho
  | @reported _ _ _ e₀ hfound =>
    injection ho with ho
    rw [ho] at hhalf
    have hstate : (e₀.touch s.gate.cfg r.2).state = .stateHalfOpen :=
      MemEntry.half_of_report hhalf
    exact hi.probe_serve hlease nofun hfound hstate

theorem step (hi : ProbeInv s) (hrules : a.keepsRules = true) (hquiet : s.quiet a = true)
    (hm : Move s a s') : ProbeInv s' := by
  cases hm with
  | called => exact hi.spawn rfl
  | strayed => exact nomatch hrules
  | ended hp => exact hi.setProc hp fun _ => rfl
  | @readAllow p key now hle hp =>
    have h : ProbeInv (s.setProc p ⟨key, .allowLock (s.reads, now)⟩) := hi.setProc hp nofun
    exact ⟨h.bound, h.probe⟩
  | @readReport p key success now hle hp =>
    have h : ProbeInv (s.setProc p ⟨key, .reportLock success (s.reads, now)⟩) :=
      hi.setProc hp fun _ => rfl
    exact ⟨h.bound, h.probe⟩
  | allowed hp => exact hi.allowed hp hquiet
  | reported hp => exact hi.reported hp
  | closed =>
    refine ⟨hi.bound, fun k e he => ?_⟩
    exact nomatch (AList.lookup_empty k).symm.trans he

end ProbeInv

end Callers

open Callers

/-- In every run in which callers report their own attempts and every Allow
that lets one into HALF-OPEN finds none outstanding: a HALF-OPEN entry
becomes CLOSED, or OPEN with the next exponent, only by the Report of the
attempt whose lease is current. The other way out is no transition of the
entry: an Allow that finds it idle longer than its TTL replaces it. -/
theorem probe_decides (c : AcceptedConfig) (t₀ : ℤ) (as : List Action) (s : Callers)
    (hrun : run Callers.step (Callers.init c t₀) as = some s)
    (hrules : ∀ a ∈ as, a.keepsRules = true)
    (hquiet : Along Callers.step (fun s a => s.quiet a = true) (Callers.init c t₀) as)
    (a : Action) (s' : Callers) (hstep : s.step a = some s') (k : String) (e e' : MemEntry)
    (he : s.gate.keys.lookup k = some e) (hhalf : e.state = .stateHalfOpen)
    (he' : s'.gate.keys.lookup k = some e') (hout : e'.state ≠ .stateHalfOpen) :
    (∃ p first jitterSample success r, a = .lock p first jitterSample ∧
        s.procs p = some ⟨k, .reportLock success r⟩ ∧ s.lease k = some p ∧
        (e'.state = .stateClosed ∨ e'.state = .stateOpen ∧ e'.n = e.n + 1)) ∨
      ∃ p first jitterSample r, a = .lock p first jitterSample ∧
        s.procs p = some ⟨k, .allowLock r⟩ ∧ e.expireAt ≤ r.2 := by
  have hinit : ProbeInv (Callers.init c t₀) :=
    ⟨nofun, fun k e he => nomatch (AList.lookup_empty k).symm.trans he⟩
  have hi : ProbeInv s := run_inv_along
    (fun _ _ _ (hi : ProbeInv _) ha h => hi.step ha.2 ha.1 (step_move h))
    (hquiet.and_forall hrules) hinit hrun
  have hsame : s'.gate.keys.lookup k = s.gate.keys.lookup k → False := by
    intro hsame
    rw [hsame, he] at he'
    exact hout (Option.some.inj he' ▸ hhalf)
  cases step_move hstep with
  | called | strayed => exact (hsame rfl).elim
  | ended hp => exact (hsame rfl).elim
  | readAllow hle hp => exact (hsame rfl).elim
  | readReport hle hp => exact (hsame rfl).elim
  | closed => exact nomatch (AList.lookup_empty k).symm.trans he'
  | @allowed p key r first jitterSample hp =>
    have hafter : (s.gate.call (.allow key r.2 first)).keys.lookup k = some e' := he'
    have hmove := s.gate.keyMove k (.allow key r.2 first)
    rw [hafter] at hmove
    generalize ho : some e' = o at hmove
    generalize s.gate.admits k (.allow key r.2 first) = b at hmove
    cases hmove with
    | kept => exact (hsame (hafter.trans ho)).elim
    | dropped => exact nomatch ho
    | allowed hfound hlive =>
      injection ho with ho
      obtain rfl := Option.some.inj (hfound.symm.trans he)
      refine absurd ?_ hout
      rw [ho]
      exact MemEntry.allow_half hhalf
    | created hgone => exact .inr ⟨p, first, jitterSample, r, rfl, hp, hgone e he⟩
  | @reported p key success r first jitterSample hp =>
    have hafter : (s.gate.call (.report key success r.2 jitterSample)).keys.lookup k =
      some e' := he'
    have hmove := s.gate.keyMove k (.report key success r.2 jitterSample)
    rw [hafter] at hmove
    generalize ho : some e' = o at hmove
    generalize s.gate.admits k (.report key success r.2 jitterSample) = b at hmove
    cases hmove with
    | kept => exact (hsame (hafter.trans ho)).elim
    | dropped => exact nomatch ho
    | reported hfound =>
      injection ho with ho
      obtain rfl := Option.some.inj (hfound.symm.trans he)
      obtain ⟨p', hlease, hall⟩ := hi.probe k _ he hhalf
      obtain rfl : p = p' := hall p _ hp rfl rfl
      subst ho
      exact .inl ⟨p, first, jitterSample, success, r, rfl, hp, hlease,
        MemEntry.report_of_half hhalf hout⟩

/-- An attempt trips the key; after the cooldown the next one probes and
succeeds. -/
def probeRun : List Action :=
  [.allow "k", .read 0 1, .lock 0 anyKey noJitter, .outcome 0 false, .read 0 1,
    .lock 0 anyKey noJitter, .allow "k", .read 1 (1 + second), .lock 1 anyKey noJitter,
    .outcome 1 true, .read 1 (2 + second)]

-- `Rat` arithmetic is irreducible, so it is the kernel that says the run goes through.
theorem probeRun_runs : (run Callers.step (Callers.init oneFailure 0) probeRun).isSome = true := by
  decide +kernel

theorem probeRun_reports :
    (((run Callers.step (Callers.init oneFailure 0) probeRun).get probeRun_runs).step
      (.lock 1 anyKey noJitter)).isSome = true := by
  decide +kernel

def probedEntry : MemEntry :=
  ⟨0, 0, .stateHalfOpen, 1 + second, 0, 1 + 2 * second, true, 1 + 61 * second⟩

def healedEntry : MemEntry :=
  ⟨1, 0, .stateClosed, 1 + second, 2 + second, 1 + 2 * second, false, 2 + 61 * second⟩

theorem probe_decides_probeRun :
    ∃ s s' e e', run Callers.step (Callers.init oneFailure 0) probeRun = some s ∧
      s.step (.lock 1 anyKey noJitter) = some s' ∧
      s.gate.keys.lookup "k" = some e ∧ s'.gate.keys.lookup "k" = some e' ∧
      e.state = .stateHalfOpen ∧ e'.state = .stateClosed ∧
      ((∃ p first jitterSample success r,
          Action.lock 1 anyKey noJitter = .lock p first jitterSample ∧
          s.procs p = some ⟨"k", .reportLock success r⟩ ∧ s.lease "k" = some p ∧
          (e'.state = .stateClosed ∨ e'.state = .stateOpen ∧ e'.n = e.n + 1)) ∨
        ∃ p first jitterSample r, Action.lock 1 anyKey noJitter = .lock p first jitterSample ∧
          s.procs p = some ⟨"k", .allowLock r⟩ ∧ e.expireAt ≤ r.2) :=
  ⟨_, _, probedEntry, healedEntry, (Option.some_get probeRun_runs).symm,
    (Option.some_get probeRun_reports).symm, by decide +kernel, by decide +kernel, rfl, rfl,
    probe_decides oneFailure 0 probeRun _ (Option.some_get probeRun_runs).symm
      (by decide +kernel) (by decide +kernel) (.lock 1 anyKey noJitter) _
      (Option.some_get probeRun_reports).symm "k" probedEntry healedEntry (by decide +kernel) rfl
      (by decide +kernel) nofun⟩

/-- Two attempts are admitted while the key is CLOSED. The second fails and
trips it; a third becomes the probe. Then the first one succeeds. -/
def slowAttempt : List Action :=
  [.allow "k", .read 0 1, .lock 0 anyKey noJitter, .allow "k", .read 1 1, .lock 1 anyKey noJitter,
    .outcome 1 false, .read 1 1, .lock 1 anyKey noJitter,
    .allow "k", .read 2 (1 + second), .lock 2 anyKey noJitter,
    .outcome 0 true, .read 0 (2 + second)]

/-- Its Report closes the circuit while the probe is under way. -/
theorem slow_report_closes :
    ∃ s s' e e', run Callers.step (Callers.init oneFailure 0) slowAttempt = some s ∧
      (∀ a ∈ slowAttempt, a.keepsRules = true) ∧
      s.step (.lock 0 anyKey noJitter) = some s' ∧
      s.gate.keys.lookup "k" = some e ∧ s'.gate.keys.lookup "k" = some e' ∧
      e.state = .stateHalfOpen ∧ e'.state = .stateClosed ∧
      s.lease "k" = some 2 ∧ (s.procs 2).map (·.pc) = some .admitted :=
  ⟨_, _, probedEntry, healedEntry, rfl, by decide +kernel, rfl, by decide +kernel,
    by decide +kernel, rfl, rfl, by decide +kernel, by decide +kernel⟩

end MiddlewareUtils.BackendBackoff
