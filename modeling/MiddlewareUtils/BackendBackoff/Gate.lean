import Mathlib.Data.Rat.Floor
import MiddlewareUtils.Lib.Keyed

/-!
# The backend backoff gate

`backendbackoff/gate.go` and `allow.go`, statement for statement. Each key
has an entry that is CLOSED, OPEN or HALF-OPEN; `Allow` admits or denies an
attempt, `Report` records how an admitted one came out. Both read the clock
first and take `g.mu` then, so here the reading is an argument and the
function is what happens under the lock.

A `time.Time` is its distance from the zero time in nanoseconds, so
`IsZero` is a comparison with `0`; a `Duration` is a count of nanoseconds.
Ratios, jitter and credit are `float64` in Go and rational here; a
FailureRatio or Jitter that is NaN, which `resolveConfig` accepts, has no
counterpart. The exponent `n` is an `int` in Go and has no bound here. What
the random source draws is an argument, a number in `[0, 1)`. Go picks the
order of a `range` over a map: the key `dropOne` meets first is a parameter.
The `default` branches of the two switches, for a state that is none of the
three, have no counterpart.

A configuration `New` would take is an `AcceptedConfig`: the settings
together with the fact that `resolveConfig` produced them.
-/

namespace MiddlewareUtils.BackendBackoff

open Lib

/-- What `New` and the calls return as error. -/
inductive GateError where
  | ratio
  | trip
  | base
  | max
  | jitter
  | ttl
  | closed
  deriving DecidableEq, Repr

def GateError.text : GateError → String
  | .ratio => "backendbackoff: FailureRatio must be in (0, 1)"
  | .trip => "backendbackoff: TripFailures must be at least 1"
  | .base => "backendbackoff: BaseCooldown must be greater than 0"
  | .max => "backendbackoff: MaxCooldown must be at least BaseCooldown"
  | .jitter => "backendbackoff: Jitter must be in [0, 1)"
  | .ttl => "backendbackoff: TTL must be at least 1s"
  | .closed => "backendbackoff: gate is closed"

def second : ℤ := 1000000000

/-! ## Config -/

structure Config where
  failureRatio : ℚ
  tripFailures : ℤ
  baseCooldown : ℤ
  maxCooldown : ℤ
  jitter : ℚ
  ttl : ℤ
  deriving DecidableEq, Repr

def Config.zero : Config := ⟨0, 0, 0, 0, 0, 0⟩

def defaultFailureRatio : ℚ := 3 / 10
def defaultTripFailures : ℤ := 5
def defaultBaseCooldown : ℤ := second
def defaultMaxCooldown : ℤ := 10 * second
def defaultJitter : ℚ := 1 / 10
def defaultTTL : ℤ := 60 * second
def maxMemorySources : ℕ := 65536

/-- The first half of `resolveConfig`: zero fields get their defaults, and
the jitter only when every field is zero. -/
def Config.fill (cfg : Config) : Config where
  failureRatio := if cfg.failureRatio = 0 then defaultFailureRatio else cfg.failureRatio
  tripFailures := if cfg.tripFailures = 0 then defaultTripFailures else cfg.tripFailures
  baseCooldown := if cfg.baseCooldown = 0 then defaultBaseCooldown else cfg.baseCooldown
  maxCooldown := if cfg.maxCooldown = 0 then defaultMaxCooldown else cfg.maxCooldown
  jitter := if cfg = Config.zero then defaultJitter else cfg.jitter
  ttl := if cfg.ttl = 0 then defaultTTL else cfg.ttl

def Config.check (cfg : Config) : Except GateError Config :=
  if cfg.failureRatio ≤ 0 ∨ 1 ≤ cfg.failureRatio then .error .ratio
  else if cfg.tripFailures < 1 then .error .trip
  else if cfg.baseCooldown ≤ 0 then .error .base
  else if cfg.maxCooldown < cfg.baseCooldown then .error .max
  else if cfg.jitter < 0 ∨ 1 ≤ cfg.jitter then .error .jitter
  else if cfg.ttl < second then .error .ttl
  else .ok cfg

def resolveConfig (cfg : Config) : Except GateError Config := cfg.fill.check

/-- The settings a gate runs with: what `resolveConfig` made of some `Config`. -/
structure AcceptedConfig extends Config where
  accepted : ∃ cfg, resolveConfig cfg = .ok toConfig

namespace Config

/-- `p / (1 - p)`. -/
def successCredit (cfg : Config) : ℚ := cfg.failureRatio / (1 - cfg.failureRatio)

/-- The doubling loop of `cooldownDuration`. -/
def doubled (cfg : Config) : ℕ → ℤ → ℤ
  | 0, wait => wait
  | n + 1, wait =>
    if wait > cfg.maxCooldown.tdiv 2 then cfg.maxCooldown else cfg.doubled n (wait * 2)

/-- `time.Duration` of a float: towards zero. -/
def truncate (q : ℚ) : ℤ := if 0 ≤ q then ⌊q⌋ else ⌈q⌉

/-- `rng.Float64()`. -/
abbrev Sample := { u : ℚ // 0 ≤ u ∧ u < 1 }

def cooldownDuration (cfg : Config) (n : ℕ) (jitterSample : Sample) : ℤ :=
  let wait := cfg.doubled n cfg.baseCooldown
  let wait := if wait > cfg.maxCooldown then cfg.maxCooldown else wait
  if cfg.jitter ≤ 0 then wait
  else
    let jittered := truncate (wait * (1 + cfg.jitter * (2 * jitterSample.1 - 1)))
    let jittered := if jittered < 0 then 0 else jittered
    if jittered > cfg.maxCooldown then cfg.maxCooldown else jittered

end Config

/-! ## One entry -/

inductive GateState where
  | stateClosed
  | stateOpen
  | stateHalfOpen
  deriving DecidableEq, Repr

structure MemEntry where
  credit : ℚ
  n : ℕ
  state : GateState
  openUntil : ℤ
  closedSince : ℤ
  probeUntil : ℤ
  probeOutstanding : Bool
  expireAt : ℤ
  deriving DecidableEq, Repr

namespace MemEntry

def fresh (budget : ℚ) (now : ℤ) : MemEntry := ⟨budget, 0, .stateClosed, 0, now, 0, false, 0⟩

def resetNIfClosedLongEnough (cfg : Config) (now : ℤ) (entry : MemEntry) : MemEntry :=
  if entry.closedSince = 0 then entry
  else if now < entry.closedSince + cfg.maxCooldown then entry
  else { entry with n := 0 }

/-- `entry.expireAt = now.Add(g.cfg.TTL)`. -/
def touch (cfg : Config) (now : ℤ) (entry : MemEntry) : MemEntry :=
  { entry with expireAt := now + cfg.ttl }

/-- The attempt becomes the probe, with a lease of `BaseCooldown`. -/
def lease (cfg : Config) (now : ℤ) (entry : MemEntry) : MemEntry :=
  { entry with
    state := .stateHalfOpen, probeOutstanding := true, probeUntil := now + cfg.baseCooldown }

/-- The switch of `Allow`: the entry, whether the attempt may proceed, and
how long to wait if not. -/
def allow (cfg : Config) (now : ℤ) (entry : MemEntry) : MemEntry × Bool × ℤ :=
  match entry.state with
  | .stateClosed => (entry.resetNIfClosedLongEnough cfg now, true, 0)
  | .stateOpen =>
    if now < entry.openUntil then (entry, false, entry.openUntil - now)
    else (entry.lease cfg now, true, 0)
  | .stateHalfOpen =>
    if entry.probeOutstanding = true ∧ now < entry.probeUntil then
      (entry, false, entry.probeUntil - now)
    else (entry.lease cfg now, true, 0)

/-- The switch of `Report`. -/
def report (cfg : Config) (budget : ℚ) (now : ℤ) (success : Bool) (jitterSample : Config.Sample)
    (entry : MemEntry) : MemEntry :=
  match entry.state with
  | .stateOpen => entry
  | .stateHalfOpen =>
    if entry.probeOutstanding = false then entry
    else if success then
      { entry with
        probeOutstanding := false, credit := budget, state := .stateClosed, closedSince := now }
    else
      { entry with
        probeOutstanding := false
        n := entry.n + 1
        state := .stateOpen
        openUntil := now + cfg.cooldownDuration (entry.n + 1) jitterSample }
  | .stateClosed =>
    if success then
      let credit := entry.credit + cfg.successCredit
      { entry with credit := if credit > budget then budget else credit }
    else
      let entry := entry.resetNIfClosedLongEnough cfg now
      let entry := { entry with credit := entry.credit - 1 }
      if entry.credit ≤ 0 then
        { entry with
          state := .stateOpen
          openUntil := now + cfg.cooldownDuration entry.n jitterSample
          closedSince := 0 }
      else entry

end MemEntry

/-! ## The gate -/

/-- `map[string]*memEntry`. -/
abbrev Entries := AList fun _ : String => MemEntry

/-- `Gate`, without its lock and random source. -/
structure Gate where
  cfg : Config
  budget : ℚ
  closed : Bool
  keys : Entries

namespace Gate

def new (cfg : AcceptedConfig) : Gate := ⟨cfg.toConfig, cfg.tripFailures, false, ∅⟩

/-- `now.Before(entry.expireAt)`. -/
def live (now : ℤ) (entry : MemEntry) : Bool := decide (now < entry.expireAt)

def dropExpired (now : ℤ) (keys : Entries) : Entries := keep (live now) keys

def dropOne (first : Entries → String) (now : ℤ) (keys : Entries) : Entries :=
  let keys := dropExpired now keys
  if size keys < maxMemorySources then keys else keys.erase (first keys)

/-- The entry `Allow` works on, and the map it is then in. -/
def loadEntry (g : Gate) (first : Entries → String) (key : String) (now : ℤ) :
    MemEntry × Entries :=
  let found := g.keys.lookup key
  let keys := if found.any (!live now ·) then g.keys.erase key else g.keys
  match found.filter (live now) with
  | some entry => (entry, keys)
  | none =>
    let keys := dropExpired now keys
    let keys := if maxMemorySources ≤ size keys then dropOne first now keys else keys
    let entry := MemEntry.fresh g.budget now
    (entry, keys.insert key entry)

/-- `Allow` under the lock: allowed and `retryAfter`, or an error. -/
def allow (g : Gate) (first : Entries → String) (key : String) (now : ℤ) :
    Gate × Except GateError (Bool × ℤ) :=
  if g.closed then (g, .error .closed)
  else
    let (entry, keys) := g.loadEntry first key now
    let (entry, answer) := (entry.touch g.cfg now).allow g.cfg now
    ({ g with keys := keys.insert key entry }, .ok answer)

/-- `Report` under the lock. -/
def report (g : Gate) (key : String) (success : Bool) (now : ℤ) (jitterSample : Config.Sample) :
    Gate × Except GateError Unit :=
  if g.closed then (g, .error .closed)
  else
    match g.keys.lookup key with
    | none => (g, .ok ())
    | some entry =>
      let entry := (entry.touch g.cfg now).report g.cfg g.budget now success jitterSample
      ({ g with keys := g.keys.insert key entry }, .ok ())

def close (g : Gate) : Gate := { g with closed := true, keys := ∅ }

end Gate

/-- One call, with the reading it brings to the lock. -/
inductive Call where
  | allow (key : String) (now : ℤ) (first : Entries → String)
  | report (key : String) (success : Bool) (now : ℤ) (jitterSample : Config.Sample)
  | close

/-- The reading a call brings; `Close` brings none. -/
def Call.now? : Call → Option ℤ
  | .allow _ now _ => some now
  | .report _ _ now _ => some now
  | .close => none

/-- The key a call works on. -/
def Call.key? : Call → Option String
  | .allow key _ _ => some key
  | .report key _ _ _ => some key
  | .close => none

namespace Gate

def call (g : Gate) : Call → Gate
  | .allow key now first => (g.allow first key now).1
  | .report key success now jitterSample => (g.report key success now jitterSample).1
  | .close => g.close

/-- The call is an `Allow` of `k` that lets the attempt proceed. -/
def admits (g : Gate) (k : String) : Call → Bool
  | .allow key now first =>
    match (g.allow first key now).2 with
    | .ok answer => decide (key = k) && answer.1
    | .error _ => false
  | _ => false

end Gate

/-! ## What the settings promise -/

theorem Config.check_ok {cfg c : Config} (h : cfg.check = .ok c) :
    (0 < c.failureRatio ∧ c.failureRatio < 1) ∧ 1 ≤ c.tripFailures ∧ 0 < c.baseCooldown ∧
      c.baseCooldown ≤ c.maxCooldown ∧ second ≤ c.ttl := by
  unfold Config.check at h
  split_ifs at h with hratio htrip hbase hmax hjitter httl
  injection h with h
  subst h
  push Not at hratio htrip hbase hmax httl
  exact ⟨hratio, htrip, hbase, hmax, httl⟩

namespace AcceptedConfig

variable (c : AcceptedConfig)

theorem bounds : 0 < c.baseCooldown ∧ c.baseCooldown ≤ c.maxCooldown ∧ second ≤ c.ttl := by
  obtain ⟨cfg, h⟩ := c.accepted
  exact (Config.check_ok h).2.2

theorem knobs : 0 < c.failureRatio ∧ c.failureRatio < 1 ∧ 1 ≤ c.tripFailures := by
  obtain ⟨cfg, h⟩ := c.accepted
  obtain ⟨hratio, htrip, _⟩ := Config.check_ok h
  exact ⟨hratio.1, hratio.2, htrip⟩

theorem successCredit_pos : 0 < c.successCredit :=
  div_pos c.knobs.1 (sub_pos.mpr c.knobs.2.1)

end AcceptedConfig

/-- The loop stops at `MaxCooldown` exactly when doubling would pass it, so
it computes the capped power of two without ever leaving the range. -/
theorem Config.doubled_eq {cfg : Config} :
    ∀ (n : ℕ) {wait : ℤ}, 0 < wait → wait ≤ cfg.maxCooldown →
      cfg.doubled n wait = min (wait * 2 ^ n) cfg.maxCooldown := by
  intro n
  induction n with
  | zero =>
    intro wait _ hle
    rw [doubled, pow_zero, mul_one, min_eq_left hle]
  | succ n ih =>
    intro wait hpos hle
    have hdiv : cfg.maxCooldown.tdiv 2 = cfg.maxCooldown / 2 :=
      Int.tdiv_eq_ediv_of_nonneg (by omega)
    rw [doubled, hdiv]
    split
    next hgt =>
      rw [min_eq_right]
      calc cfg.maxCooldown ≤ wait * 2 := by omega
        _ ≤ wait * 2 ^ (n + 1) := by
          rw [pow_succ, mul_comm (2 ^ n : ℤ) 2, ← mul_assoc]
          exact le_mul_of_one_le_right (by omega) (one_le_pow₀ (by decide))
    next hgt =>
      rw [ih (by omega) (by omega), pow_succ, mul_comm (2 ^ n : ℤ) 2, ← mul_assoc]

theorem Config.cooldownDuration_eq {cfg : Config} (hbase : 0 < cfg.baseCooldown)
    (hmax : cfg.baseCooldown ≤ cfg.maxCooldown) (hj : cfg.jitter = 0) (n : ℕ)
    (jitterSample : Config.Sample) :
    cfg.cooldownDuration n jitterSample = min (cfg.baseCooldown * 2 ^ n) cfg.maxCooldown := by
  have hle : min (cfg.baseCooldown * 2 ^ n) cfg.maxCooldown ≤ cfg.maxCooldown := min_le_right _ _
  rw [Config.cooldownDuration, Config.doubled_eq n hbase hmax]
  dsimp only
  rw [if_neg (not_lt.mpr hle), hj, if_pos (le_refl _)]

theorem AcceptedConfig.cooldownDuration_eq (c : AcceptedConfig) (hj : c.jitter = 0) (n : ℕ)
    (jitterSample : Config.Sample) :
    c.cooldownDuration n jitterSample = min (c.baseCooldown * 2 ^ n) c.maxCooldown := by
  obtain ⟨hbase, hmax, _⟩ := c.bounds
  exact Config.cooldownDuration_eq hbase hmax hj n jitterSample

/-! ## What a call does to the map -/

theorem MemEntry.reset_state (cfg : Config) (now : ℤ) (e : MemEntry) :
    (e.resetNIfClosedLongEnough cfg now).state = e.state := by
  unfold resetNIfClosedLongEnough
  split
  · rfl
  · split <;> rfl

namespace MemEntry

variable {cfg : Config} {now : ℤ} {e : MemEntry}

theorem allow_not_open (h : (e.allow cfg now).1.state = .stateOpen) : e.state = .stateOpen := by
  unfold allow at h
  split at h
  next hstate =>
    unfold resetNIfClosedLongEnough at h
    split at h
    · exact h
    · split at h <;> exact h
  next hstate => exact hstate
  · split at h
    · exact h
    · exact nomatch h

/-- A Report that opens the circuit does so for the cooldown of the exponent
it leaves, from its own reading. -/
theorem report_opens {budget : ℚ} {success : Bool} {jitterSample : Config.Sample}
    (hne : e.state ≠ .stateOpen)
    (h : (e.report cfg budget now success jitterSample).state = .stateOpen) :
    (e.report cfg budget now success jitterSample).openUntil =
      now + cfg.cooldownDuration (e.report cfg budget now success jitterSample).n
        jitterSample := by
  cases hstate : e.state with
  | stateOpen => exact absurd hstate hne
  | stateHalfOpen =>
    rw [report, hstate] at h ⊢
    dsimp only at h ⊢
    by_cases hprobe : e.probeOutstanding = false
    · rw [if_pos hprobe] at h
      exact absurd h hne
    · rw [if_neg hprobe] at h ⊢
      cases success with
      | true => exact nomatch h
      | false => rfl
  | stateClosed =>
    rw [report, hstate] at h ⊢
    dsimp only at h ⊢
    cases success with
    | true => exact nomatch h
    | false =>
      rw [if_neg Bool.false_ne_true] at h ⊢
      split at h
      next hcredit => rw [if_pos hcredit]
      · exact absurd ((e.reset_state cfg now).symm.trans h) hne

end MemEntry

namespace Gate

variable {g : Gate} {first : Entries → String} {key k : String} {now : ℤ}

theorem dropOne_eq {keys : Entries} :
    dropOne first now keys = evict (live now) maxMemorySources first keys := rfl

theorem loadEntry_entry (g : Gate) (first : Entries → String) (key : String) (now : ℤ) :
    (g.keys.lookup key = some (g.loadEntry first key now).1 ∧
        now < (g.loadEntry first key now).1.expireAt) ∨
      ((g.loadEntry first key now).1 = .fresh g.budget now ∧
        ∀ e, g.keys.lookup key = some e → e.expireAt ≤ now) := by
  unfold loadEntry
  dsimp only
  split
  next entry hentry =>
    obtain ⟨hfound, hlive⟩ := Option.filter_eq_some_iff.mp hentry
    exact .inl ⟨hfound, of_decide_eq_true hlive⟩
  next hnone =>
    refine .inr ⟨rfl, fun e he => ?_⟩
    rw [he, Option.filter_some] at hnone
    split at hnone
    · exact nomatch hnone
    next hlive => exact not_lt.mp fun hlt => hlive (decide_eq_true hlt)

theorem loadEntry_other {e : MemEntry} (hne : k ≠ key)
    (h : (g.loadEntry first key now).2.lookup k = some e) : g.keys.lookup k = some e := by
  have hfirst : ∀ b : Bool, (if b then g.keys.erase key else g.keys).lookup k = some e →
      g.keys.lookup k = some e := by
    intro b hb
    split at hb
    · exact lookup_of_erase hb
    · exact hb
  unfold loadEntry at h
  dsimp only at h
  generalize hb : (g.keys.lookup key).any (!live now ·) = b at h
  cases hfound : (g.keys.lookup key).filter (live now) with
  | some entry =>
    rw [hfound] at h
    exact hfirst b h
  | none =>
    rw [hfound] at h
    dsimp only at h
    rw [AList.lookup_insert_ne hne] at h
    have hswept :
        (dropExpired now (if b then g.keys.erase key else g.keys)).lookup k = some e := by
      generalize dropExpired now (if b then g.keys.erase key else g.keys) = keys at h ⊢
      split at h
      · rw [dropOne_eq] at h
        exact lookup_of_evict h
      · exact h
    exact hfirst b (lookup_of_keep hswept)

/-- What a call can do to the entry of `k`, and whether it admits an attempt
on `k`. An entry is worked on by a call on its own key, or dropped. -/
inductive KeyMove (g : Gate) (k : String) : Call → Option MemEntry → Bool → Prop
  | kept {c : Call} : KeyMove g k c (g.keys.lookup k) false
  | dropped {c : Call} : KeyMove g k c none false
  | allowed {now : ℤ} {first : Entries → String} {e : MemEntry}
      (hfound : g.keys.lookup k = some e) (hlive : now < e.expireAt) :
      KeyMove g k (.allow k now first) (some ((e.touch g.cfg now).allow g.cfg now).1)
        ((e.touch g.cfg now).allow g.cfg now).2.1
  | created {now : ℤ} {first : Entries → String}
      (hgone : ∀ e, g.keys.lookup k = some e → e.expireAt ≤ now) :
      KeyMove g k (.allow k now first)
        (some (((MemEntry.fresh g.budget now).touch g.cfg now).resetNIfClosedLongEnough
          g.cfg now)) true
  | reported {success : Bool} {now : ℤ} {jitterSample : Config.Sample} {e : MemEntry}
      (hfound : g.keys.lookup k = some e) :
      KeyMove g k (.report k success now jitterSample)
        (some ((e.touch g.cfg now).report g.cfg g.budget now success jitterSample)) false

theorem allow_keyMove (g : Gate) (k key : String) (now : ℤ) (first : Entries → String) :
    KeyMove g k (.allow key now first) ((g.call (.allow key now first)).keys.lookup k)
      (g.admits k (.allow key now first)) := by
  unfold call admits allow
  cases hclosed : g.closed with
  | true => exact .kept
  | false =>
    dsimp only
    rw [if_neg Bool.false_ne_true]
    by_cases hk : key = k
    · subst hk
      dsimp only
      rw [AList.lookup_insert, decide_eq_true rfl, Bool.true_and]
      rcases g.loadEntry_entry first key now with ⟨hfound, hlive⟩ | ⟨hfresh, hgone⟩
      · exact .allowed hfound hlive
      · rw [hfresh]
        exact .created hgone
    · dsimp only
      rw [AList.lookup_insert_ne (Ne.symm hk), decide_eq_false hk, Bool.false_and]
      cases hafter : (g.loadEntry first key now).2.lookup k with
      | none => exact .dropped
      | some e =>
        rw [← loadEntry_other (Ne.symm hk) hafter]
        exact .kept

theorem report_keyMove (g : Gate) (k key : String) (success : Bool) (now : ℤ)
    (jitterSample : Config.Sample) :
    KeyMove g k (.report key success now jitterSample)
      ((g.call (.report key success now jitterSample)).keys.lookup k) false := by
  unfold call report
  cases hclosed : g.closed with
  | true => exact .kept
  | false =>
    dsimp only
    rw [if_neg Bool.false_ne_true]
    cases hfound : g.keys.lookup key with
    | none => exact .kept
    | some e =>
      by_cases hk : key = k
      · subst hk
        dsimp only
        rw [AList.lookup_insert]
        exact .reported hfound
      · dsimp only
        rw [AList.lookup_insert_ne (Ne.symm hk)]
        exact .kept

theorem keyMove (g : Gate) (k : String) (c : Call) :
    KeyMove g k c ((g.call c).keys.lookup k) (g.admits k c) := by
  cases c with
  | allow key now first => exact g.allow_keyMove k key now first
  | report key success now jitterSample => exact g.report_keyMove k key success now jitterSample
  | close => exact .dropped

theorem KeyMove.other {c : Call} {after : Option MemEntry} {admitted : Bool}
    (hmove : g.KeyMove k c after admitted) (hk : c.key? ≠ some k) :
    after = g.keys.lookup k ∨ after = none := by
  cases hmove with
  | kept => exact .inl rfl
  | dropped => exact .inr rfl
  | allowed | created | reported => exact absurd rfl hk

theorem opened_by_report {c : Call} {after : Option MemEntry} {admitted : Bool} {e' : MemEntry}
    (hmove : g.KeyMove k c after admitted) (he' : after = some e')
    (hopen : e'.state = .stateOpen)
    (hbefore : ∀ e, g.keys.lookup k = some e → e.state ≠ .stateOpen) :
    ∃ success now jitterSample, c = .report k success now jitterSample ∧
      e'.openUntil = now + g.cfg.cooldownDuration e'.n jitterSample := by
  cases hmove with
  | kept => exact absurd hopen (hbefore e' he')
  | dropped => exact nomatch he'
  | @allowed now first e hfound hlive =>
    have hne : (e.touch g.cfg now).state ≠ .stateOpen := hbefore e hfound
    injection he' with he'
    rw [← he'] at hopen
    exact absurd (MemEntry.allow_not_open hopen) hne
  | created hgone =>
    injection he' with he'
    rw [← he', MemEntry.reset_state] at hopen
    exact nomatch hopen
  | @reported success now jitterSample e hfound =>
    have hne : (e.touch g.cfg now).state ≠ .stateOpen := hbefore e hfound
    injection he' with he'
    subst he'
    exact ⟨_, _, _, rfl, MemEntry.report_opens hne hopen⟩

theorem call_cfg (g : Gate) (c : Call) : (g.call c).cfg = g.cfg := by
  cases c with
  | allow key now first =>
    unfold call allow
    dsimp only
    split <;> rfl
  | report key success now jitterSample =>
    unfold call report
    dsimp only
    split
    · rfl
    · split <;> rfl
  | close => rfl

end Gate

end MiddlewareUtils.BackendBackoff
