import MiddlewareUtils.Lib.Run
import MiddlewareUtils.BackendBackoff.Callers

/-!
# How far apart an open circuit lets attempts through

Any calls on any keys, one after another in the order they take the lock,
with readings that do not go back; reports may come from anywhere. One key
is watched. From the Report that trips it until it is CLOSED again or
dropped, `marks` lists what matters for the spacing: when the circuit was
opened, by the trip or by a failed probe, and which Allows were admitted.
Each mark says how early the next admitted Allow may be: a cooldown after an
opening, `BaseCooldown` after an admission.

The spacing holds for all pairs of marks, by an invariant that relates the
marks to the two deadlines of the entry. While the key is OPEN, every mark
is cleared by `openUntil`. While it is HALF-OPEN, every mark is cleared by
`probeUntil`, and the openings are cleared already. So an admitted Allow,
which comes after the deadline of its state, is far enough from every mark
before it; and a failed probe, which moves `openUntil` to a cooldown from
now, clears the earlier admissions because a cooldown is never shorter than
`BaseCooldown`.

A Report that is not the probe's can open or close the circuit as well. It
moves the deadlines in the same way, so the spacing does not notice.
-/

namespace MiddlewareUtils.BackendBackoff

open Lib

/-- What the spacing of attempts is measured from. -/
inductive Mark where
  /-- The key became OPEN with this exponent. -/
  | opened (t : ℤ) (n : ℕ)
  | admitted (t : ℤ)
  deriving DecidableEq, Repr

namespace Mark

def time : Mark → ℤ
  | opened t _ => t
  | admitted t => t

def clear (cfg : Config) : Mark → ℤ
  | opened t n => t + min (cfg.baseCooldown * 2 ^ n) cfg.maxCooldown
  | admitted t => t + cfg.baseCooldown

/-- A later admitted Allow respects the earlier mark. -/
def Spaced (cfg : Config) (m m' : Mark) : Prop :=
  match m' with
  | opened _ _ => True
  | admitted t => m.clear cfg ≤ t

end Mark

def remark (now : ℤ) (before after : Option MemEntry) (admitted : Bool)
    (marks : Option (List Mark)) : Option (List Mark) :=
  match after with
  | none => none
  | some e =>
    match e.state with
    | .stateClosed => none
    | .stateOpen =>
      if before.any (·.state = .stateOpen) then marks
      else some (marks.getD [] ++ [Mark.opened now e.n])
    | .stateHalfOpen => if admitted then marks.map (· ++ [Mark.admitted now]) else marks

/-- A gate with one key watched. -/
structure Circuit where
  gate : Gate
  clock : ℤ
  marks : Option (List Mark)

namespace Circuit

def init (cfg : AcceptedConfig) (t₀ : ℤ) : Circuit := ⟨.new cfg, t₀, none⟩

def after (k : String) (s : Circuit) (c : Call) (now : ℤ) : Circuit :=
  ⟨s.gate.call c, now,
    remark now (s.gate.keys.lookup k) ((s.gate.call c).keys.lookup k) (s.gate.admits k c) s.marks⟩

/-- The next call, if its reading is not older than the last one. -/
def step (k : String) (s : Circuit) (c : Call) : Option Circuit :=
  match c.now? with
  | none => some (s.after k c s.clock)
  | some now => if s.clock ≤ now then some (s.after k c now) else none

theorem step_eq {k : String} {s s' : Circuit} {c : Call} (h : s.step k c = some s') :
    ∃ now, s.clock ≤ now ∧ (∀ t, c.now? = some t → t = now) ∧ s' = s.after k c now := by
  unfold step at h
  cases hnow : c.now? with
  | none =>
    rw [hnow] at h
    injection h with h
    exact ⟨s.clock, le_refl _, nofun, h.symm⟩
  | some now =>
    rw [hnow] at h
    dsimp only at h
    split at h
    next hle =>
      injection h with h
      exact ⟨now, hle, fun t ht => (Option.some.inj ht).symm, h.symm⟩
    · exact nomatch h

end Circuit

/-! ## What the marks and the deadlines have to do with each other -/

/-- The marks of a tripped key: they begin with the trip, they are spaced,
and none lies ahead of the clock. -/
structure Tripped (cfg : Config) (clock : ℤ) (ms : List Mark) : Prop where
  trip : ∃ t n rest, ms = .opened t n :: rest
  spaced : ms.Pairwise (Mark.Spaced cfg)
  past : ∀ m ∈ ms, m.time ≤ clock

inductive Marked (cfg : Config) (clock : ℤ) : Option MemEntry → Option (List Mark) → Prop
  | absent : Marked cfg clock none none
  | closed {e : MemEntry} (hstate : e.state = .stateClosed) : Marked cfg clock (some e) none
  | opened {e : MemEntry} {ms : List Mark} (hstate : e.state = .stateOpen)
      (htrip : Tripped cfg clock ms) (hclear : ∀ m ∈ ms, m.clear cfg ≤ e.openUntil) :
      Marked cfg clock (some e) (some ms)
  | probing {e : MemEntry} {ms : List Mark} (hstate : e.state = .stateHalfOpen)
      (hprobe : e.probeOutstanding = true) (htrip : Tripped cfg clock ms)
      (hclear : ∀ m ∈ ms, m.clear cfg ≤ e.probeUntil)
      (hopened : ∀ t n, .opened t n ∈ ms → (Mark.opened t n).clear cfg ≤ clock) :
      Marked cfg clock (some e) (some ms)

variable {cfg : Config} {clock now : ℤ}

theorem Tripped.mono {ms : List Mark} (h : Tripped cfg clock ms) (hle : clock ≤ now) :
    Tripped cfg now ms :=
  ⟨h.trip, h.spaced, fun m hm => le_trans (h.past m hm) hle⟩

theorem Marked.mono {e : Option MemEntry} {marks : Option (List Mark)}
    (h : Marked cfg clock e marks) (hle : clock ≤ now) : Marked cfg now e marks := by
  cases h with
  | absent => exact .absent
  | closed hstate => exact .closed hstate
  | opened hstate htrip hclear => exact .opened hstate (htrip.mono hle) hclear
  | probing hstate hprobe htrip hclear hopened =>
    exact .probing hstate hprobe (htrip.mono hle) hclear
      fun t n hm => le_trans (hopened t n hm) hle

theorem Tripped.append {ms : List Mark} {m : Mark} (h : Tripped cfg now ms)
    (hm : ∀ m' ∈ ms, m'.Spaced cfg m) (hpast : m.time ≤ now) : Tripped cfg now (ms ++ [m]) := by
  obtain ⟨t, n, rest, rfl⟩ := h.trip
  refine ⟨⟨t, n, rest ++ [m], rfl⟩, ?_, ?_⟩
  · refine List.pairwise_append.mpr ⟨h.spaced, List.pairwise_singleton _ _, ?_⟩
    intro a ha b hb
    rw [List.mem_singleton.mp hb]
    exact hm a ha
  · intro a ha
    rcases List.mem_append.mp ha with ha | ha
    · exact h.past a ha
    · rw [List.mem_singleton.mp ha]
      exact hpast

theorem Marked.leased {e : MemEntry} {ms : List Mark} (hbase : 0 < cfg.baseCooldown)
    (htrip : Tripped cfg now ms) (hclear : ∀ m ∈ ms, m.clear cfg ≤ now) :
    Marked cfg now (some (e.lease cfg now)) (some (ms ++ [Mark.admitted now])) := by
  refine .probing rfl rfl (htrip.append hclear (le_refl _)) ?_ ?_
  · intro m hm
    show m.clear cfg ≤ now + cfg.baseCooldown
    rcases List.mem_append.mp hm with hm | hm
    · have := hclear m hm
      omega
    · rw [List.mem_singleton.mp hm]
      exact le_refl _
  · intro t n hm
    rcases List.mem_append.mp hm with hm | hm
    · exact hclear _ hm
    · exact nomatch List.mem_singleton.mp hm

/-! ## One call -/

section Step

variable {c : AcceptedConfig} {g : Gate} {e : MemEntry} {marks : Option (List Mark)}

theorem AcceptedConfig.base_le_cooldown (c : AcceptedConfig) (n : ℕ) :
    c.baseCooldown ≤ min (c.baseCooldown * 2 ^ n) c.maxCooldown := by
  obtain ⟨hbase, hmax, _⟩ := c.bounds
  exact le_min (le_mul_of_one_le_right (le_of_lt hbase) (one_le_pow₀ (by decide))) hmax

theorem Marked.allowed (h : Marked c.toConfig now (some e) marks) :
    Marked c.toConfig now (some ((e.touch c.toConfig now).allow c.toConfig now).1)
      (remark now (some e) (some ((e.touch c.toConfig now).allow c.toConfig now).1)
        ((e.touch c.toConfig now).allow c.toConfig now).2.1 marks) := by
  have hbase := c.bounds.1
  have htouch : (e.touch c.toConfig now).state = e.state := rfl
  unfold MemEntry.allow
  rw [htouch]
  cases h with
  | closed hstate =>
    have hreset := ((e.touch c.toConfig now).reset_state c.toConfig now).trans hstate
    rw [hstate]
    dsimp only [remark]
    rw [hreset]
    exact .closed hreset
  | opened hstate htrip hclear =>
    rw [hstate]
    dsimp only
    split
    · dsimp only [remark]
      rw [htouch, hstate]
      dsimp only
      rw [if_pos (by simp [hstate])]
      exact .opened hstate htrip hclear
    next hdue =>
      refine Marked.leased hbase htrip fun m hm => le_trans (hclear m hm) ?_
      exact not_lt.mp hdue
  | probing hstate hprobe htrip hclear hopened =>
    rw [hstate]
    dsimp only
    split
    · dsimp only [remark]
      rw [htouch, hstate]
      exact .probing hstate hprobe htrip hclear hopened
    next hdue =>
      refine Marked.leased hbase htrip fun m hm => le_trans (hclear m hm) ?_
      exact not_lt.mp fun hlt => hdue ⟨hprobe, hlt⟩

theorem Marked.reopened {ms : List Mark} {n : ℕ} {jitterSample : Config.Sample}
    (hj : c.jitter = 0) (hstate : e.state = .stateOpen) (hn : e.n = n)
    (hopen : e.openUntil = now + c.cooldownDuration n jitterSample)
    (htrip : Tripped c.toConfig now (ms ++ [Mark.opened now e.n]))
    (hclear : ∀ m ∈ ms, m.clear c.toConfig ≤ e.openUntil) :
    Marked c.toConfig now (some e) (some (ms ++ [Mark.opened now e.n])) := by
  refine .opened hstate htrip ?_
  intro m hm
  rcases List.mem_append.mp hm with hm | hm
  · exact hclear m hm
  · rw [List.mem_singleton.mp hm, hopen, hn, c.cooldownDuration_eq hj]
    exact le_refl _

theorem Marked.reported {budget : ℚ} {success : Bool} {jitterSample : Config.Sample}
    (hj : c.jitter = 0) (h : Marked c.toConfig now (some e) marks) :
    let e' := (e.touch c.toConfig now).report c.toConfig budget now success jitterSample
    Marked c.toConfig now (some e') (remark now (some e) (some e') false marks) := by
  have htouch : (e.touch c.toConfig now).state = e.state := rfl
  unfold MemEntry.report
  rw [htouch]
  cases h with
  | closed hstate =>
    rw [hstate]
    dsimp only
    split
    · exact .closed rfl
    · have hreset := ((e.touch c.toConfig now).reset_state c.toConfig now).trans hstate
      generalize (e.touch c.toConfig now).resetNIfClosedLongEnough c.toConfig now = r at hreset ⊢
      split
      · dsimp only [remark]
        rw [if_neg (by simp [hstate])]
        refine Marked.reopened hj rfl rfl rfl ?_ nofun
        exact ⟨⟨_, _, [], rfl⟩, List.pairwise_singleton _ _, by simp [Mark.time]⟩
      · dsimp only [remark]
        rw [hreset]
        exact .closed rfl
  | opened hstate htrip hclear =>
    rw [hstate]
    dsimp only [remark]
    rw [htouch, hstate]
    dsimp only
    rw [if_pos (by simp [hstate])]
    exact .opened hstate htrip hclear
  | probing hstate hprobe htrip hclear hopened =>
    rw [hstate]
    dsimp only
    have hout : (e.touch c.toConfig now).probeOutstanding = true := hprobe
    rw [if_neg (by simp [hout])]
    split
    · exact .closed rfl
    · dsimp only [remark]
      rw [if_neg (by simp [hstate])]
      refine Marked.reopened hj rfl rfl rfl
        (htrip.append (fun _ _ => trivial) (le_refl _)) ?_
      -- The openings are cleared already; an admission is no younger than now.
      intro m hm
      have hcool := c.base_le_cooldown (e.n + 1)
      have hbase := c.bounds.1
      show m.clear c.toConfig ≤ now + c.cooldownDuration (e.n + 1) jitterSample
      rw [c.cooldownDuration_eq hj]
      cases m with
      | opened t n =>
        have := hopened t n hm
        omega
      | admitted t =>
        have : t ≤ now := htrip.past _ hm
        show t + c.baseCooldown ≤ _
        omega

theorem Marked.same (h : Marked cfg now (some e) marks) :
    Marked cfg now (some e) (remark now (some e) (some e) false marks) := by
  unfold remark
  cases h with
  | closed hstate =>
    dsimp only
    rw [hstate]
    exact .closed hstate
  | opened hstate htrip hclear =>
    dsimp only
    rw [hstate]
    dsimp only
    rw [if_pos (by simp [hstate])]
    exact .opened hstate htrip hclear
  | probing hstate hprobe htrip hclear hopened =>
    dsimp only
    rw [hstate]
    exact .probing hstate hprobe htrip hclear hopened

end Step

structure SpacingInv (c : AcceptedConfig) (k : String) (s : Circuit) : Prop where
  cfg : s.gate.cfg = c.toConfig
  marked : Marked c.toConfig s.clock (s.gate.keys.lookup k) s.marks

theorem SpacingInv.step {c : AcceptedConfig} (hj : c.jitter = 0) {k : String} {s s' : Circuit}
    {call : Call} (hi : SpacingInv c k s) (h : s.step k call = some s') : SpacingInv c k s' := by
  obtain ⟨now, hle, hnow, rfl⟩ := Circuit.step_eq h
  have hmarked := hi.marked.mono hle
  refine ⟨(s.gate.call_cfg call).trans hi.cfg, ?_⟩
  show Marked c.toConfig now ((s.gate.call call).keys.lookup k)
    (remark now (s.gate.keys.lookup k) ((s.gate.call call).keys.lookup k)
      (s.gate.admits k call) s.marks)
  have hmove := s.gate.keyMove k call
  generalize (s.gate.call call).keys.lookup k = after at hmove ⊢
  generalize s.gate.admits k call = admitted at hmove ⊢
  cases hmove with
  | kept =>
    cases he : s.gate.keys.lookup k with
    | none => exact .absent
    | some e => exact (he ▸ hmarked).same
  | dropped => exact .absent
  | allowed hfound hlive =>
    obtain rfl := hnow _ rfl
    rw [hfound] at hmarked ⊢
    rw [hi.cfg]
    exact hmarked.allowed
  | @created now' first hgone =>
    obtain rfl : now' = now := hnow _ rfl
    have hstate := MemEntry.reset_state s.gate.cfg now'
      ((MemEntry.fresh s.gate.budget now').touch s.gate.cfg now')
    dsimp only [remark]
    rw [hstate]
    exact .closed hstate
  | reported hfound =>
    obtain rfl := hnow _ rfl
    rw [hfound] at hmarked ⊢
    rw [hi.cfg]
    exact hmarked.reported hj

/-- For every accepted configuration that runs without jitter and every
sequence of calls with readings that do not go back: whenever a key is OPEN
or HALF-OPEN, its marks begin with the Report that tripped it, and every
admitted Allow among them comes no sooner than a cooldown of its exponent
after each opening before it, and no sooner than `BaseCooldown` after each
admitted Allow before it. -/
theorem open_circuit_spacing (c : AcceptedConfig) (hj : c.jitter = 0) (k : String) (t₀ : ℤ)
    (calls : List Call) (s : Circuit)
    (hrun : run (Circuit.step k) (Circuit.init c t₀) calls = some s)
    (e : MemEntry) (he : s.gate.keys.lookup k = some e) (hopen : e.state ≠ .stateClosed) :
    ∃ t n rest, s.marks = some (.opened t n :: rest) ∧
      (Mark.opened t n :: rest).Pairwise (Mark.Spaced c.toConfig) := by
  have hi : SpacingInv c k s := run_inv (fun _ _ _ hi h => hi.step hj h) ⟨rfl, .absent⟩ hrun
  have hmarked := hi.marked
  rw [he] at hmarked
  generalize s.marks = marks at hmarked ⊢
  cases hmarked with
  | closed hstate => exact absurd hstate hopen
  | opened _ htrip _ =>
    obtain ⟨t, n, rest, rfl⟩ := htrip.trip
    exact ⟨t, n, rest, rfl, htrip.spaced⟩
  | probing _ _ htrip _ _ =>
    obtain ⟨t, n, rest, rfl⟩ := htrip.trip
    exact ⟨t, n, rest, rfl, htrip.spaced⟩

/-- Trips at the first failure, waits one second, at most four. -/
def quickTrip : AcceptedConfig where
  failureRatio := 1 / 2
  tripFailures := 1
  baseCooldown := second
  maxCooldown := 4 * second
  jitter := 0
  ttl := 60 * second
  accepted := ⟨⟨1 / 2, 1, second, 4 * second, 0, 60 * second⟩, by decide +kernel⟩

/-- A trip, a probe that fails, and the next probe two seconds later. -/
def quickTripCalls : List Call :=
  [.allow "k" 1 anyKey, .report "k" false 1 noJitter, .allow "k" 2 anyKey,
    .allow "k" (1 + second) anyKey, .report "k" false (2 + second) noJitter,
    .allow "k" (2 + 3 * second) anyKey]

theorem open_circuit_spacing_quickTrip :
    ∃ s e, run (Circuit.step "k") (Circuit.init quickTrip 0) quickTripCalls = some s ∧
      s.gate.keys.lookup "k" = some e ∧ e.state ≠ .stateClosed ∧
      s.marks = some [.opened 1 0, .admitted (1 + second), .opened (2 + second) 1,
        .admitted (2 + 3 * second)] ∧
      ∃ t n rest, s.marks = some (.opened t n :: rest) ∧
        (Mark.opened t n :: rest).Pairwise (Mark.Spaced quickTrip.toConfig) :=
  ⟨_, _, rfl, rfl, by decide +kernel, by decide +kernel,
    open_circuit_spacing quickTrip rfl "k" 0 quickTripCalls _ rfl _ rfl (by decide +kernel)⟩

end MiddlewareUtils.BackendBackoff
