import MiddlewareUtils.Lib.SuffixSum
import MiddlewareUtils.BackendBackoff.Callers
import MiddlewareUtils.BackendBackoff.Chronicle

/-!
# When a key trips

The credit of a CLOSED key starts at the budget, loses one with each failure
and gains `p / (1 - p)` with each success, up to the budget again. What it
lacks to the budget is therefore a running number held at zero from below,
and such a number is the largest sum of a suffix (`Lib.MaxSuffixSum`): of
all the stretches of Reports that end with the latest one, the worst counts.
The key trips when there is one whose failures outweigh its successes by the
budget, and not before.

With it comes what every stored entry satisfies: its credit lies where its
state says, `closedSince` is the reading the key was created or closed with,
and a probe is outstanding exactly while it is HALF-OPEN.
-/

namespace MiddlewareUtils.BackendBackoff

open Lib

def drift (cfg : Config) (success : Bool) : ℚ := if success then -cfg.successCredit else 1

/-- What a list of Reports does to the credit before it is capped. -/
def driftOf (cfg : Config) (reports : List Bool) : ℚ := (reports.map (drift cfg)).sum

/-! ## The entry -/

structure Sound (budget : ℚ) (log : List Event) (e : MemEntry) : Prop where
  closed : e.state = .stateClosed →
    (0 < e.credit ∧ e.credit ≤ budget) ∧ e.closedSince = closedAt log ∧ e.probeOutstanding = false
  opened : e.state = .stateOpen → (-1 < e.credit ∧ e.credit ≤ 0) ∧ e.probeOutstanding = false
  probing : e.state = .stateHalfOpen → (-1 < e.credit ∧ e.credit ≤ 0) ∧ e.probeOutstanding = true

/-- What a CLOSED entry lacks to the budget is the worst stretch of Reports. -/
structure Drifted (cfg : Config) (budget : ℚ) (log : List Event) (e : MemEntry) : Prop where
  lacks : MaxSuffixSum ((outcomes log).map (drift cfg)) (budget - e.credit)
  bounded : ∀ ys, ys <:+: outcomes log → driftOf cfg ys < budget

variable {cfg : Config} {budget : ℚ} {now : ℤ} {e e' : MemEntry} {log log' : List Event}

namespace Sound

theorem fresh (hb : 1 ≤ budget) :
    Sound budget [.created now] ((MemEntry.fresh budget now).touch cfg now) := by
  have hcredit : 0 < ((MemEntry.fresh budget now).touch cfg now).credit := by
    show 0 < budget
    linarith
  exact ⟨fun _ => ⟨⟨hcredit, le_refl _⟩, rfl, rfl⟩, nofun, nofun⟩

theorem touch (h : Sound budget log e) : Sound budget log (e.touch cfg now) :=
  ⟨h.closed, h.opened, h.probing⟩

theorem reset (h : Sound budget log e) : Sound budget log (e.resetNIfClosedLongEnough cfg now) := by
  constructor
  · rw [MemEntry.reset_state, MemEntry.reset_credit, MemEntry.reset_closedSince,
      MemEntry.reset_probeOutstanding]
    exact h.closed
  · rw [MemEntry.reset_state, MemEntry.reset_credit, MemEntry.reset_probeOutstanding]
    exact h.opened
  · rw [MemEntry.reset_state, MemEntry.reset_credit, MemEntry.reset_probeOutstanding]
    exact h.probing

theorem spent (h : Sound budget log e) (hstate : e.state ≠ .stateClosed) :
    -1 < e.credit ∧ e.credit ≤ 0 := by
  cases hs : e.state with
  | stateClosed => exact absurd hs hstate
  | stateOpen => exact (h.opened hs).1
  | stateHalfOpen => exact (h.probing hs).1

theorem move (hb : 1 ≤ budget) (hs : 0 < cfg.successCredit) (h : Sound budget log e)
    (hm : EntryMove cfg budget now e log e' log') : Sound budget log' e' := by
  cases hm with
  | ignored => exact h
  | passed => exact h.reset
  | leased hstate => exact ⟨nofun, nofun, fun _ => ⟨h.spent hstate, rfl⟩⟩
  | closed =>
    have hpos : 0 < budget := by linarith
    exact ⟨fun _ => ⟨⟨hpos, le_refl _⟩, rfl, rfl⟩, nofun, nofun⟩
  | failed hstate => exact ⟨nofun, fun _ => ⟨(h.probing hstate).1, rfl⟩, nofun⟩
  | succeeded hstate =>
    obtain ⟨⟨hpos, _⟩, hsince, hprobe⟩ := h.closed hstate
    refine ⟨fun _ => ⟨⟨lt_min (by linarith) (by linarith), min_le_left _ _⟩, hsince, hprobe⟩,
      fun hopen => ?_, fun hhalf => ?_⟩
    · exact absurd (hstate.symm.trans hopen) nofun
    · exact absurd (hstate.symm.trans hhalf) nofun
  | counted hstate hcredit =>
    obtain ⟨⟨_, hle⟩, hsince, hprobe⟩ := h.closed hstate
    have hstate' := (e.reset_state cfg now).trans hstate
    refine ⟨fun _ => ⟨⟨hcredit, by dsimp only; linarith⟩, ?_, ?_⟩, fun hopen => ?_,
      fun hhalf => ?_⟩
    · exact MemEntry.reset_closedSince.trans hsince
    · exact MemEntry.reset_probeOutstanding.trans hprobe
    · exact absurd (hstate'.symm.trans hopen) nofun
    · exact absurd (hstate'.symm.trans hhalf) nofun
  | tripped hstate hcredit =>
    obtain ⟨⟨hpos, _⟩, _, hprobe⟩ := h.closed hstate
    refine ⟨nofun, fun _ => ⟨⟨by dsimp only; linarith, hcredit⟩, ?_⟩, nofun⟩
    exact MemEntry.reset_probeOutstanding.trans hprobe

end Sound

/-! ## The worst stretch -/

theorem lacks_snoc {credit : ℚ} {xs : List Bool} (hle : credit ≤ budget) (success : Bool)
    (h : MaxSuffixSum (xs.map (drift cfg)) (budget - credit)) :
    MaxSuffixSum ((xs ++ [success]).map (drift cfg))
      (budget - if success then min budget (credit + cfg.successCredit) else credit - 1) := by
  have hsnoc := h.snoc (drift cfg success)
  rw [List.map_append, List.map_singleton]
  cases success with
  | true =>
    convert hsnoc using 1
    simp only [drift, if_true]
    rcases le_total budget (credit + cfg.successCredit) with hcap | hcap
    · rw [min_eq_left hcap, max_eq_left (by linarith)]
      ring
    · rw [min_eq_right hcap, max_eq_right (by linarith)]
      ring
  | false =>
    convert hsnoc using 1
    simp only [drift, Bool.false_eq_true, if_false]
    rw [max_eq_right (by linarith)]
    ring

namespace Drifted

theorem nil (hb : 1 ≤ budget) (hlog : outcomes log = []) (hcredit : e.credit = budget) :
    Drifted cfg budget log e := by
  refine ⟨?_, fun ys hys => ?_⟩
  · rw [hlog, hcredit, sub_self]
    exact .nil
  · rw [hlog] at hys
    rw [List.infix_nil.mp hys, driftOf, List.map_nil, List.sum_nil]
    linarith

theorem snoc (h : Drifted cfg budget log e) {success : Bool}
    (hlog : outcomes log' = outcomes log ++ [success])
    (hlacks : MaxSuffixSum ((outcomes log ++ [success]).map (drift cfg)) (budget - e'.credit))
    (hpos : 0 < e'.credit) : Drifted cfg budget log' e' := by
  refine ⟨hlog ▸ hlacks, fun ys hys => ?_⟩
  rw [hlog] at hys
  rcases infix_snoc hys with hys | hys
  · exact h.bounded ys hys
  · have hle : driftOf cfg ys ≤ budget - e'.credit := hlacks.2 ⟨_, hys.map _, rfl⟩
    linarith

theorem move (hb : 1 ≤ budget) (hs : 0 < cfg.successCredit) (hsound : Sound budget log e)
    (h : e.state = .stateClosed → Drifted cfg budget log e)
    (hm : EntryMove cfg budget now e log e' log') (hstate' : e'.state = .stateClosed) :
    Drifted cfg budget log' e' := by
  cases hm with
  | ignored => exact h hstate'
  | passed hstate =>
    refine ⟨?_, (h hstate).bounded⟩
    rw [MemEntry.reset_credit]
    exact (h hstate).lacks
  | leased => cases hstate'
  | closed => exact .nil hb rfl rfl
  | failed => cases hstate'
  | succeeded hstate =>
    obtain ⟨⟨hpos, hle⟩, _⟩ := hsound.closed hstate
    exact (h hstate).snoc rfl (lacks_snoc hle true (h hstate).lacks)
      (lt_min (by linarith) (by linarith))
  | counted hstate hcredit =>
    obtain ⟨⟨_, hle⟩, _⟩ := hsound.closed hstate
    exact (h hstate).snoc rfl (lacks_snoc hle false (h hstate).lacks) hcredit
  | tripped => cases hstate'

end Drifted

/-! ## Every state -/

structure ChronicleInv (cfg : AcceptedConfig) (k : String) (s : Chronicle) : Prop where
  settings : s.gate.cfg = cfg.toConfig ∧ s.gate.budget = cfg.tripFailures
  empty : s.gate.closed = true → s.gate.keys = ∅
  sound : ∀ e, s.gate.keys.lookup k = some e → Sound cfg.tripFailures s.log e
  drifted : ∀ e, s.gate.keys.lookup k = some e → e.state = .stateClosed →
    Drifted cfg.toConfig cfg.tripFailures s.log e

theorem AcceptedConfig.one_le_budget (c : AcceptedConfig) : (1 : ℚ) ≤ c.tripFailures := by
  exact_mod_cast c.knobs.2.2

theorem Gate.empty_call {g : Gate} (h : g.closed = true → g.keys = ∅) (c : Call) :
    (g.call c).closed = true → (g.call c).keys = ∅ := by
  cases c with
  | allow key now first =>
    unfold Gate.call Gate.allow
    dsimp only
    split
    · exact h
    next hopen => exact fun hclosed => absurd hclosed hopen
  | report key success now jitterSample =>
    unfold Gate.call Gate.report
    dsimp only
    split
    · exact h
    next hopen =>
      split
      · exact h
      · exact fun hclosed => absurd hclosed hopen
  | close => exact fun _ => rfl

namespace ChronicleInv

variable {c : AcceptedConfig} {k : String} {s s' : Chronicle}

theorem init (c : AcceptedConfig) (k : String) (t₀ : ℤ) : ChronicleInv c k (.init c t₀) :=
  ⟨⟨rfl, rfl⟩, nofun, nofun, nofun⟩

theorem step {a : Call} (h : ChronicleInv c k s) (hs : s.step k a = some s') :
    ChronicleInv c k s' := by
  obtain ⟨hcfg, hbudget, _⟩ := Chronicle.step_settings hs
  have hkey := Chronicle.step_keyStep hs
  rw [h.settings.1, h.settings.2] at hkey
  have hempty : s'.gate.closed = true → s'.gate.keys = ∅ := by
    injection hs with hs
    subst hs
    exact Gate.empty_call h.empty a
  refine ⟨⟨hcfg.trans h.settings.1, hbudget.trans h.settings.2⟩, hempty, ?_, ?_⟩
  · intro e' he'
    rw [he'] at hkey
    generalize hbefore : s.gate.keys.lookup k = before at hkey
    generalize s'.log = log' at hkey ⊢
    cases hkey with
    | kept => exact h.sound e' hbefore
    | created => exact .fresh c.one_le_budget
    | worked _ _ hmove =>
      exact (h.sound _ hbefore).touch.move c.one_le_budget c.successCredit_pos hmove
  · intro e' he' hstate'
    rw [he'] at hkey
    generalize hbefore : s.gate.keys.lookup k = before at hkey
    generalize s'.log = log' at hkey ⊢
    cases hkey with
    | kept => exact h.drifted e' hbefore hstate'
    | created => exact .nil c.one_le_budget rfl rfl
    | @worked now e e' log log' _ _ hmove =>
      refine Drifted.move c.one_le_budget c.successCredit_pos (h.sound _ hbefore).touch ?_ hmove
        hstate'
      intro hstate
      have hd := h.drifted _ hbefore hstate
      exact ⟨hd.lacks, hd.bounded⟩

theorem run {t₀ : ℤ} {calls : List Call}
    (hrun : Lib.run (Chronicle.step k) (.init c t₀) calls = some s) :
    ChronicleInv c k s :=
  run_inv (fun _ _ _ h hs => h.step hs) (.init c k t₀) hrun

theorem open_of_found (h : ChronicleInv c k s) (he : s.gate.keys.lookup k = some e) :
    s.gate.closed = false := by
  cases hclosed : s.gate.closed with
  | false => rfl
  | true =>
    rw [h.empty hclosed] at he
    cases he

end ChronicleInv

/-! ## The law -/

/-- A CLOSED key, the Reports it has had since it was created or closed, and
what one more does to it. -/
structure TripLaw (cfg : Config) (budget : ℚ) (k : String) (g : Gate) (reports : List Bool)
    (e : MemEntry) : Prop where
  credit : MaxSuffixSum (reports.map (drift cfg)) (budget - e.credit)
  before : ∀ ys, ys <:+: reports → driftOf cfg ys < budget
  next : ∀ success now jitterSample, ∃ e',
    (g.call (.report k success now jitterSample)).keys.lookup k = some e' ∧
    MaxSuffixSum ((reports ++ [success]).map (drift cfg)) (budget - e'.credit) ∧
    (e'.state = .stateOpen ↔ ∃ ys, ys <:+ reports ++ [success] ∧ budget ≤ driftOf cfg ys) ∧
    (e'.state = .stateOpen ∨ e'.state = .stateClosed)

theorem report_of_closed (hstate : e.state = .stateClosed) (success : Bool)
    (jitterSample : Config.Sample) :
    let e' := (e.touch cfg now).report cfg budget now success jitterSample
    e'.credit = (if success then min budget (e.credit + cfg.successCredit) else e.credit - 1) ∧
      (e'.state = .stateOpen ∧ e'.credit ≤ 0 ∨
        e'.state = .stateClosed ∧ (success = true ∨ 0 < e'.credit)) := by
  intro e'
  have hmove : EntryMove cfg budget now (e.touch cfg now) [] e' _ :=
    @MemEntry.report_move cfg budget now (e.touch cfg now) [] success jitterSample
  have hnote : MemEntry.noteReport success now e'.state [] (e.touch cfg now) =
      if e'.state = .stateOpen then [.tripped 0 now, .reported success]
      else [.reported success] := by
    simp only [MemEntry.noteReport, show (e.touch cfg now).state = .stateClosed from hstate]
    rfl
  rw [hnote] at hmove
  generalize hlog : (if e'.state = .stateOpen then [Event.tripped 0 now, .reported success]
    else [.reported success]) = log at hmove
  generalize e' = left at hmove hlog ⊢
  cases hmove with
  | ignored | passed | leased => split at hlog <;> cases hlog
  | closed | failed => split at hlog <;> cases hlog
  | succeeded =>
    split at hlog
    · cases hlog
    · cases hlog
      exact ⟨rfl, .inr ⟨hstate, .inl rfl⟩⟩
  | counted _ hcredit =>
    split at hlog
    · cases hlog
    · cases hlog
      exact ⟨rfl, .inr ⟨(MemEntry.reset_state ..).trans hstate, .inr hcredit⟩⟩
  | tripped _ hcredit =>
    split at hlog
    · cases hlog
      exact ⟨rfl, .inl ⟨rfl, hcredit⟩⟩
    · cases hlog

/-- After any calls, what a CLOSED key has lost of its budget is the largest drift
of a stretch of Reports that ends now, and one more Report opens it exactly
when such a stretch reaches the budget. -/
theorem trip_law (c : AcceptedConfig) (k : String) (t₀ : ℤ) (calls : List Call) (s : Chronicle)
    (hrun : Lib.run (Chronicle.step k) (.init c t₀) calls = some s) (e : MemEntry)
    (hfound : s.gate.keys.lookup k = some e) (hclosed : e.state = .stateClosed) :
    TripLaw c.toConfig c.tripFailures k s.gate (outcomes s.log) e := by
  have hinv := ChronicleInv.run hrun
  have hd := hinv.drifted e hfound hclosed
  have hopen := hinv.open_of_found hfound
  obtain ⟨⟨hpos, hle⟩, _⟩ := (hinv.sound e hfound).closed hclosed
  refine ⟨hd.lacks, hd.bounded, fun success now jitterSample => ?_⟩
  obtain ⟨hcredit, hstate⟩ := @report_of_closed c.toConfig c.tripFailures now e hclosed success
    jitterSample
  have hlacks := lacks_snoc hle success hd.lacks
  rw [← hcredit] at hlacks
  have hafter : (s.gate.call (.report k success now jitterSample)).keys.lookup k =
      some ((e.touch c.toConfig now).report c.toConfig c.tripFailures now success
        jitterSample) := by
    rw [Gate.call, Gate.report, hopen, hfound, hinv.settings.1, hinv.settings.2]
    exact AList.lookup_insert _
  generalize (e.touch c.toConfig now).report c.toConfig c.tripFailures now success jitterSample = e'
    at hcredit hstate hlacks hafter
  refine ⟨e', hafter, hlacks, ?_, hstate.imp And.left And.left⟩
  have hspent : e'.state = .stateOpen ↔ e'.credit ≤ 0 := by
    rcases hstate with ⟨hs, hc⟩ | ⟨hs, hc⟩
    · exact iff_of_true hs hc
    · have hleft : 0 < e'.credit := by
        rcases hc with rfl | hc
        · rw [hcredit]
          exact lt_min (by linarith) (by linarith [c.successCredit_pos])
        · exact hc
      exact iff_of_false (by rw [hs]; nofun) (not_le.mpr hleft)
  have hreach : e'.credit ≤ 0 ↔ (c.tripFailures : ℚ) ≤ c.tripFailures - e'.credit := by
    constructor <;> intro h <;> linarith
  rw [hspent, hreach, hlacks.le_iff]
  constructor
  · rintro ⟨ys, hys, hb⟩
    obtain ⟨zs, hzs, rfl⟩ := List.suffix_map_iff.mp hys
    exact ⟨zs, hzs, hb⟩
  · rintro ⟨zs, hzs, hb⟩
    exact ⟨_, hzs.map _, hb⟩

/-- Two failures more than successes open the circuit. -/
def twoFailures : AcceptedConfig where
  failureRatio := 1 / 2
  tripFailures := 2
  baseCooldown := second
  maxCooldown := 10 * second
  jitter := 0
  ttl := 60 * second
  accepted := ⟨⟨1 / 2, 2, second, 10 * second, 0, 60 * second⟩, by decide +kernel⟩

def twoFailuresCalls : List Call :=
  [.allow "k" 1 fun _ => "k", .report "k" true 2 noJitter, .report "k" false 3 noJitter]

/-- The success before it counts for nothing: the next failure trips the key. -/
theorem trip_law_twoFailures : ∃ s e,
    Lib.run (Chronicle.step "k") (.init twoFailures 0) twoFailuresCalls = some s ∧
    s.gate.keys.lookup "k" = some e ∧ outcomes s.log = [true, false] ∧
    driftOf twoFailures.toConfig [false, false] = 2 ∧
    TripLaw twoFailures.toConfig twoFailures.tripFailures "k" s.gate (outcomes s.log) e :=
  ⟨_, _, rfl, rfl, by decide +kernel, by decide +kernel,
    trip_law twoFailures "k" 0 twoFailuresCalls _ rfl _ rfl (by decide +kernel)⟩

end MiddlewareUtils.BackendBackoff
