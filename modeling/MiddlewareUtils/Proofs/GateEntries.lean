import MiddlewareUtils.BackendBackoff.Raw
import MiddlewareUtils.Proofs.GateTrips

/-!
# Every stored entry is one of three

The gate over Go's own types does what the typed gate does: `encode` writes a
typed gate in those types, and a call on the encoded gate is the encoded call,
with the same answer (`encode_call`). So what the typed gate leaves out by its
types is never there. No call writes to a nil map, no entry is in a fourth
state, no exponent is negative and no call answers `errUnknown`.

What the typed gate does not have by its types it keeps as an invariant. The
ranges of the credit and the probe flag come from the history of the key
(`Sound`). The size of the map is kept below the cap by `dropOne`, which
deletes a key that is there.
-/

namespace MiddlewareUtils.BackendBackoff

open Lib

/-! ## The typed gate in Go's types -/

theorem GateState.code_injective {a b : GateState} (h : a.code = b.code) : a = b := by
  cases a <;> cases b <;> first | rfl | exact absurd h (by decide)

namespace MemEntry

def encode (e : MemEntry) : RawEntry where
  credit := e.credit
  n := e.n
  state := e.state.code
  openUntil := e.openUntil
  closedSince := e.closedSince
  probeUntil := e.probeUntil
  probeOutstanding := e.probeOutstanding
  expireAt := e.expireAt

variable {cfg : Config} {budget : ℚ} {now : ℤ} {e : MemEntry}

theorem encode_touch : (e.touch cfg now).encode = e.encode.touch cfg now := rfl

theorem encode_live : RawGate.live now e.encode = Gate.live now e := rfl

theorem encode_reset : (e.resetNIfClosedLongEnough cfg now).encode =
    e.encode.resetNIfClosedLongEnough cfg now := by
  unfold resetNIfClosedLongEnough RawEntry.resetNIfClosedLongEnough
  rw [show e.encode.closedSince = e.closedSince from rfl]
  split
  · rfl
  · split <;> rfl

theorem encode_allow : e.encode.allow cfg now =
    ((e.allow cfg now).1.encode, .allow (e.allow cfg now).2.1 (e.allow cfg now).2.2 none) := by
  have hcode : e.encode.state = e.state.code := rfl
  unfold allow RawEntry.allow
  rw [hcode]
  cases hstate : e.state with
  | stateClosed =>
    rw [if_pos rfl, ← encode_reset]
  | stateOpen =>
    rw [if_neg (by decide), if_pos rfl, show e.encode.openUntil = e.openUntil from rfl]
    dsimp only
    split <;> rfl
  | stateHalfOpen =>
    rw [if_neg (by decide), if_neg (by decide), if_pos rfl,
      show e.encode.probeOutstanding = e.probeOutstanding from rfl,
      show e.encode.probeUntil = e.probeUntil from rfl]
    dsimp only
    split
    · rfl
    · simp only [lease, encode, hstate]

theorem encode_report {success : Bool} {jitterSample : Config.Sample} :
    e.encode.report cfg budget now success jitterSample =
      ((e.report cfg budget now success jitterSample).encode, .report none) := by
  have hcode : e.encode.state = e.state.code := rfl
  unfold report RawEntry.report
  rw [hcode]
  cases hstate : e.state with
  | stateOpen => rw [if_pos rfl]
  | stateHalfOpen =>
    rw [if_neg (by decide), if_pos rfl,
      show e.encode.probeOutstanding = e.probeOutstanding from rfl]
    dsimp only
    split
    · rfl
    · cases success <;> rfl
  | stateClosed =>
    rw [if_neg (by decide), if_neg (by decide), if_pos rfl]
    cases success with
    | true =>
      simp only [encode, hstate, if_true]
    | false =>
      rw [if_neg Bool.false_ne_true, if_neg Bool.false_ne_true, ← encode_reset]
      dsimp only
      rw [show (e.resetNIfClosedLongEnough cfg now).encode.credit =
        (e.resetNIfClosedLongEnough cfg now).credit from rfl]
      split <;> rfl

end MemEntry

namespace Gate

def encode (g : Gate) : RawGate where
  cfg := g.cfg
  budget := g.budget
  closed := g.closed
  keys := if g.closed then none else some (mapValues MemEntry.encode g.keys)

end Gate

def RawCall.typed : RawCall → Call
  | .allow key now first => .allow key now fun keys => first.1 keys.keys
  | .report key success now jitterSample => .report key success now jitterSample
  | .close => .close

namespace Gate

def answer (g : Gate) : Call → Answer
  | .allow key now first =>
    match (g.allow first key now).2 with
    | .ok (allowed, retryAfter) => .allow allowed retryAfter none
    | .error _ => .allow false 0 (some .errClosed)
  | .report key success now jitterSample =>
    match (g.report key success now jitterSample).2 with
    | .ok () => .report none
    | .error _ => .report (some .errClosed)
  | .close => .close

variable {g : Gate} {key : String} {now : ℤ}

theorem entries_encode (h : g.closed = false) :
    g.encode.entries = mapValues MemEntry.encode g.keys := by
  unfold RawGate.entries encode
  rw [h]
  rfl

theorem encode_dropExpired {keys : Entries} :
    RawGate.dropExpired now (mapValues MemEntry.encode keys) =
      mapValues MemEntry.encode (dropExpired now keys) :=
  keep_mapValues fun _ => MemEntry.encode_live

theorem encode_dropOne {first : Pick} {keys : Entries} :
    RawGate.dropOne first now (mapValues MemEntry.encode keys) =
      mapValues MemEntry.encode (dropOne (fun keys => first.1 keys.keys) now keys) := by
  unfold RawGate.dropOne dropOne
  dsimp only
  rw [encode_dropExpired, size_mapValues, keys_mapValues, erase_mapValues]
  split <;> rfl

theorem encode_makeRoom {first : Pick} {keys : Entries} :
    (if maxMemorySources ≤ size (RawGate.dropExpired now (mapValues MemEntry.encode keys)) then
        RawGate.dropOne first now (RawGate.dropExpired now (mapValues MemEntry.encode keys))
      else RawGate.dropExpired now (mapValues MemEntry.encode keys)) =
      mapValues MemEntry.encode
        (if maxMemorySources ≤ size (dropExpired now keys) then
          dropOne (fun keys => first.1 keys.keys) now (dropExpired now keys)
        else dropExpired now keys) := by
  rw [encode_dropExpired, size_mapValues, encode_dropOne]
  split <;> rfl

theorem encode_loadEntry {first : Pick} (h : g.closed = false) :
    g.encode.loadEntry first key now =
      some ((g.loadEntry (fun keys => first.1 keys.keys) key now).1.encode,
        mapValues MemEntry.encode (g.loadEntry (fun keys => first.1 keys.keys) key now).2) := by
  have hkeys : g.encode.keys.isNone = false := by
    unfold encode
    rw [h]
    rfl
  have hfresh : RawEntry.fresh g.encode.budget now = (MemEntry.fresh g.budget now).encode := rfl
  unfold RawGate.loadEntry loadEntry
  dsimp only
  rw [entries_encode h, lookup_mapValues, hkeys, hfresh]
  cases hfound : g.keys.lookup key with
  | none =>
    simp only [Option.map_none, Option.any_none, Option.filter_none, Bool.false_eq_true, if_false,
      encode_makeRoom, insert_mapValues]
  | some e =>
    simp only [Option.map_some, Option.any_some, Option.filter_some, MemEntry.encode_live]
    by_cases hlive : live now e = true
    · simp only [hlive, Bool.not_true, Bool.false_eq_true, if_true, if_false]
    · rw [Bool.not_eq_true] at hlive
      simp only [hlive, Bool.not_false, Bool.false_eq_true, if_true, if_false, erase_mapValues,
        encode_makeRoom, insert_mapValues]

theorem encode_with_keys {keys : Entries} (h : g.closed = false) :
    (⟨g.cfg, g.budget, g.closed, keys⟩ : Gate).encode =
      ⟨g.cfg, g.budget, g.closed, some (mapValues MemEntry.encode keys)⟩ := by
  unfold encode
  rw [h]
  rfl

theorem encode_allow (first : Pick) :
    g.encode.allow first key now =
      some ((g.allow (fun keys => first.1 keys.keys) key now).1.encode,
        g.answer (.allow key now fun keys => first.1 keys.keys)) := by
  unfold RawGate.allow answer allow
  rw [show g.encode.closed = g.closed from rfl]
  by_cases hclosed : g.closed = true
  · simp only [hclosed, if_true]
  · have hopen := Bool.eq_false_iff.mpr hclosed
    simp only [if_neg hclosed]
    rw [encode_loadEntry hopen]
    dsimp only [Option.bind_eq_bind, Option.bind_some]
    rw [show g.encode.cfg = g.cfg from rfl, show g.encode.budget = g.budget from rfl,
      ← MemEntry.encode_touch, MemEntry.encode_allow]
    dsimp only
    rw [insert_mapValues, encode_with_keys hopen]
    rfl

theorem encode_report {success : Bool} {jitterSample : Config.Sample} :
    g.encode.report key success now jitterSample =
      ((g.report key success now jitterSample).1.encode,
        g.answer (.report key success now jitterSample)) := by
  unfold RawGate.report answer report
  rw [show g.encode.closed = g.closed from rfl]
  by_cases hclosed : g.closed = true
  · simp only [hclosed, if_true]
  · have hopen := Bool.eq_false_iff.mpr hclosed
    have hmap : g.encode.keys = some (mapValues MemEntry.encode g.keys) := if_neg hclosed
    simp only [if_neg hclosed]
    rw [entries_encode hopen, lookup_mapValues]
    cases g.keys.lookup key with
    | none => rfl
    | some e =>
      dsimp only [Option.map_some]
      rw [show g.encode.cfg = g.cfg from rfl, show g.encode.budget = g.budget from rfl,
        ← MemEntry.encode_touch, MemEntry.encode_report, hmap]
      dsimp only [Option.map_some]
      rw [insert_mapValues, encode_with_keys hopen]

theorem encode_call (g : Gate) (c : RawCall) :
    g.encode.call c = some ((g.call c.typed).encode, g.answer c.typed) := by
  cases c with
  | allow key now first => exact encode_allow first
  | report key success now jitterSample => exact congrArg some encode_report
  | close => rfl

theorem answer_known (g : Gate) (c : Call) : (g.answer c).err ≠ some .errUnknown := by
  cases c with
  | allow key now first =>
    unfold answer
    dsimp only
    split <;> nofun
  | report key success now jitterSample =>
    unfold answer
    dsimp only
    split <;> nofun
  | close => nofun

/-! ## The size of the map -/

theorem size_dropOne {first : Pick} {keys : Entries} (h : size keys ≤ maxMemorySources) :
    size (dropOne (fun keys => first.1 keys.keys) now keys) < maxMemorySources := by
  rw [dropOne_eq]
  exact size_evict_lt (by decide) (fun m => first.2 m.keys) h

theorem size_loadEntry {first : Pick} (h : size g.keys ≤ maxMemorySources) :
    key ∈ (g.loadEntry (fun keys => first.1 keys.keys) key now).2 ∧
      size (g.loadEntry (fun keys => first.1 keys.keys) key now).2 ≤ maxMemorySources := by
  unfold loadEntry
  dsimp only
  cases hlive : (g.keys.lookup key).filter (live now) with
  | some e =>
    obtain ⟨hfound, hlive⟩ := Option.filter_eq_some_iff.mp hlive
    rw [hfound, Option.any_some, hlive, Bool.not_true, if_neg Bool.false_ne_true]
    exact ⟨AList.lookup_isSome.mp (by rw [hfound]; rfl), h⟩
  | none =>
    dsimp only
    refine ⟨(AList.mem_insert _).mpr (.inl rfl), size_insert_le.trans (Nat.succ_le_of_lt ?_)⟩
    have herased : size (if (g.keys.lookup key).any (!live now ·) then g.keys.erase key
        else g.keys) ≤ maxMemorySources := by
      split
      · exact (size_erase_le _ _).trans h
      · exact h
    generalize (if (g.keys.lookup key).any (!live now ·) then g.keys.erase key else g.keys) = keys
      at herased ⊢
    split
    · exact size_dropOne ((size_keep_le _ _).trans herased)
    next hroom => exact not_le.mp hroom

theorem size_call (h : size g.keys ≤ maxMemorySources) (c : RawCall) :
    size (g.call c.typed).keys ≤ maxMemorySources := by
  cases c with
  | allow key now first =>
    show size (g.allow (fun keys => first.1 keys.keys) key now).1.keys ≤ maxMemorySources
    unfold allow
    split
    · exact h
    · obtain ⟨hmem, hsize⟩ := @size_loadEntry g key now first h
      exact (size_insert_of_mem hmem).trans_le hsize
  | report key success now jitterSample =>
    show size (g.report key success now jitterSample).1.keys ≤ maxMemorySources
    unfold report
    split
    · exact h
    · split
      · exact h
      next e hfound =>
        have hmem : key ∈ g.keys := AList.lookup_isSome.mp (by rw [hfound]; rfl)
        exact (size_insert_of_mem hmem).trans_le h
  | close => exact Nat.zero_le _

end Gate

/-! ## The watched key -/

theorem MemEntry.closedAt_noteReport {cfg : Config} {budget : ℚ} {now : ℤ} {e : MemEntry}
    {success : Bool} {jitterSample : Config.Sample} {log : List Event} :
    closedAt (e.noteReport success now (e.report cfg budget now success jitterSample).state log) =
      if e.state ≠ .stateClosed ∧
          (e.report cfg budget now success jitterSample).state = .stateClosed then now
      else closedAt log := by
  have hmove := @report_move cfg budget now e log success jitterSample
  generalize e.noteReport success now _ log = log' at hmove ⊢
  generalize e.report cfg budget now success jitterSample = e' at hmove ⊢
  cases hmove with
  | ignored => rw [if_neg fun h => h.1 h.2]
  | passed hstate => rw [if_neg fun h => h.1 hstate]
  | leased => rw [if_neg fun h => nomatch h.2]
  | closed hstate => rw [if_pos ⟨by rw [hstate]; nofun, rfl⟩]; rfl
  | failed => rw [if_neg fun h => nomatch h.2]; rfl
  | succeeded hstate => rw [if_neg fun h => h.1 hstate]; rfl
  | counted hstate => rw [if_neg fun h => h.1 hstate]; rfl
  | tripped hstate => rw [if_neg fun h => h.1 hstate]; rfl

namespace Gate

variable {k : String}

theorem find_encode (g : Gate) : g.encode.entries.lookup k =
    if g.closed then none else (g.keys.lookup k).map MemEntry.encode := by
  by_cases hclosed : g.closed = true
  · rw [if_pos hclosed, RawGate.entries, encode, if_pos hclosed]
    rfl
  · rw [if_neg hclosed, entries_encode (Bool.eq_false_iff.mpr hclosed), lookup_mapValues]

theorem missing_encode (g : Gate) (now : ℤ) : g.encode.missing k now =
    (!g.closed && (g.keys.lookup k).all (!live now ·)) := by
  rw [RawGate.missing, find_encode, show g.encode.closed = g.closed from rfl]
  cases g.closed with
  | true => rfl
  | false => cases g.keys.lookup k <;> rfl

theorem isClosed_encode (g : Gate) : g.encode.isClosed k =
    (!g.closed && (g.keys.lookup k).any (decide <| ·.state = .stateClosed)) := by
  rw [RawGate.isClosed, find_encode]
  cases g.closed with
  | true => rfl
  | false =>
    cases g.keys.lookup k with
    | none => rfl
    | some e =>
      exact decide_eq_decide.mpr ⟨GateState.code_injective, congrArg GateState.code⟩

end Gate

structure Follows (k : String) (s : Watch) (t : Chronicle) : Prop where
  gate : s.gate = t.gate.encode
  since : s.since = closedAt t.log
  size : Lib.size t.gate.keys ≤ maxMemorySources
  known : ∀ a ∈ s.answers, a.err ≠ some .errUnknown

namespace Follows

variable {k : String} {s : Watch} {t : Chronicle}

theorem mark_allow (h : Follows k s t) (key : String) (now : ℤ) (first : Pick) :
    s.mark k (t.gate.call (RawCall.allow key now first).typed).encode (.allow key now first) =
      closedAt (t.note k (RawCall.allow key now first).typed) := by
  dsimp only [Watch.mark, Chronicle.note, RawCall.typed]
  rw [h.gate, h.since, t.gate.missing_encode]
  simp only [Bool.and_eq_true, Bool.not_eq_true']
  split <;> rfl

theorem mark_report (h : Follows k s t) (key : String) (success : Bool) (now : ℤ)
    (jitterSample : Config.Sample) :
    s.mark k (t.gate.call (RawCall.report key success now jitterSample).typed).encode
        (.report key success now jitterSample) =
      closedAt (t.note k (RawCall.report key success now jitterSample).typed) := by
  dsimp only [Watch.mark, Chronicle.note, RawCall.typed, Gate.call]
  rw [h.gate, h.since]
  -- A Report that leaves the gate as it is closes nothing.
  have hsame : (t.gate.report key success now jitterSample).1 = t.gate →
      ¬(key = k ∧ t.gate.encode.isClosed k = false ∧
        (t.gate.report key success now jitterSample).1.encode.isClosed k = true) := by
    rintro hsame ⟨_, hbefore, hafter⟩
    rw [hsame, hbefore] at hafter
    cases hafter
  by_cases hk : key = k
  · subst hk
    by_cases hclosed : t.gate.closed = true
    · rw [if_neg (hsame (by rw [Gate.report, if_pos hclosed])),
        if_neg fun hopen => Bool.false_ne_true (hopen.2.symm.trans hclosed)]
    · have hopen := Bool.eq_false_iff.mpr hclosed
      cases hfound : t.gate.keys.lookup key with
      | none =>
        rw [if_neg (hsame (by rw [Gate.report, if_neg hclosed, hfound])), ite_self]
      | some e =>
        have hreport : (t.gate.report key success now jitterSample).1.encode.isClosed key =
            decide (((e.touch t.gate.cfg now).report t.gate.cfg t.gate.budget now success
              jitterSample).state = .stateClosed) := by
          rw [Gate.isClosed_encode, Gate.report, if_neg hclosed, hfound]
          dsimp only
          rw [hopen, AList.lookup_insert]
          rfl
        have hnoted : key = key ∧ t.gate.closed = false := ⟨rfl, hopen⟩
        rw [if_pos hnoted, hreport, Gate.isClosed_encode, hfound, hopen]
        refine Eq.trans ?_ (@MemEntry.closedAt_noteReport t.gate.cfg t.gate.budget now
          (e.touch t.gate.cfg now) success jitterSample t.log).symm
        simp only [Bool.not_false, Bool.true_and, Option.any_some, decide_eq_true_eq,
          decide_eq_false_iff_not, true_and]
        rfl
  · rw [if_neg fun hmark => hk hmark.1, if_neg fun hopen => hk hopen.1]

theorem step (h : Follows k s t) (c : RawCall) :
    ∃ s' t', s.step k c = some s' ∧ t.step k c.typed = some t' ∧ Follows k s' t' := by
  have hstep : s.step k c = some ⟨(t.gate.call c.typed).encode,
      s.mark k (t.gate.call c.typed).encode c, s.answers ++ [t.gate.answer c.typed]⟩ := by
    rw [Watch.step, h.gate, Gate.encode_call]
    rfl
  refine ⟨_, _, hstep, rfl, rfl, ?_, Gate.size_call h.size c, ?_⟩
  · cases c with
    | allow key now first => exact h.mark_allow key now first
    | report key success now jitterSample => exact h.mark_report key success now jitterSample
    | close => exact h.since
  · intro a ha
    rcases List.mem_append.mp ha with ha | ha
    · exact h.known a ha
    · rw [List.mem_singleton.mp ha]
      exact Gate.answer_known _ _

theorem run (h : Follows k s t) (calls : List RawCall) :
    ∃ s' t', Lib.run (Watch.step k) s calls = some s' ∧
      Lib.run (Chronicle.step k) t (calls.map RawCall.typed) = some t' ∧ Follows k s' t' := by
  induction calls generalizing s t with
  | nil => exact ⟨s, t, rfl, rfl, h⟩
  | cons c calls ih =>
    obtain ⟨s₁, t₁, hs, ht, h₁⟩ := h.step c
    obtain ⟨s', t', hs', ht', h'⟩ := ih h₁
    exact ⟨s', t', run_of_step hs hs', run_of_step ht ht', h'⟩

end Follows

/-! ## What every entry satisfies -/

/-- An entry of a gate with this budget whose key was created or last closed
at `since`. -/
inductive EntryLaw (budget : ℚ) (since : ℤ) (e : RawEntry) : Prop
  | closed (state : e.state = GateState.stateClosed.code)
      (credit : 0 < e.credit ∧ e.credit ≤ budget)
      (closedSince : e.closedSince = since) (probe : e.probeOutstanding = false) (n : 0 ≤ e.n)
  | opened (state : e.state = GateState.stateOpen.code) (credit : -1 < e.credit ∧ e.credit ≤ 0)
      (probe : e.probeOutstanding = false) (n : 0 ≤ e.n)
  | probing (state : e.state = GateState.stateHalfOpen.code)
      (credit : -1 < e.credit ∧ e.credit ≤ 0) (probe : e.probeOutstanding = true) (n : 0 ≤ e.n)

/-- What holds of the watched key, the map and the answers given. -/
structure Watch.Lawful (cfg : AcceptedConfig) (k : String) (s : Watch) : Prop where
  entry : ∀ e, s.gate.entries.lookup k = some e → EntryLaw cfg.tripFailures s.since e
  size : Lib.size s.gate.entries ≤ maxMemorySources
  shut : s.gate.closed = true → s.gate.keys = none
  known : ∀ a ∈ s.answers, a.err ≠ some .errUnknown

theorem Sound.encode {budget : ℚ} {log : List Event} {e : MemEntry} (h : Sound budget log e) :
    EntryLaw budget (closedAt log) e.encode := by
  have hcode : e.encode.state = e.state.code := rfl
  have hn : 0 ≤ e.encode.n := Int.natCast_nonneg e.n
  cases hstate : e.state with
  | stateClosed =>
    obtain ⟨hcredit, hsince, hprobe⟩ := h.closed hstate
    exact .closed (hcode.trans (congrArg _ hstate)) hcredit hsince hprobe hn
  | stateOpen =>
    obtain ⟨hcredit, hprobe⟩ := h.opened hstate
    exact .opened (hcode.trans (congrArg _ hstate)) hcredit hprobe hn
  | stateHalfOpen =>
    obtain ⟨hcredit, hprobe⟩ := h.probing hstate
    exact .probing (hcode.trans (congrArg _ hstate)) hcredit hprobe hn

/-- No sequence of calls panics, and after each of them every entry is
lawful. -/
theorem gate_lawful (cfg : AcceptedConfig) (k : String) (calls : List RawCall) :
    ∃ s, Lib.run (Watch.step k) (.init cfg) calls = some s ∧ s.Lawful cfg k := by
  have hinit : Follows k (.init cfg) (.init cfg 0) := ⟨rfl, rfl, Nat.zero_le _, nofun⟩
  obtain ⟨s, t, hs, ht, h⟩ := hinit.run calls
  refine ⟨s, hs, ?_, ?_, ?_, h.known⟩
  · intro e he
    rw [h.gate, Gate.find_encode] at he
    split at he
    · cases he
    · obtain ⟨e, hfound, rfl⟩ := Option.map_eq_some_iff.mp he
      rw [h.since]
      exact ((ChronicleInv.run ht).sound e hfound).encode
  · rw [h.gate]
    by_cases hclosed : t.gate.closed = true
    · rw [RawGate.entries, Gate.encode, if_pos hclosed]
      exact Nat.zero_le _
    · rw [Gate.entries_encode (Bool.eq_false_iff.mpr hclosed), size_mapValues]
      exact h.size
  · rw [h.gate]
    exact fun hclosed => if_pos hclosed

end MiddlewareUtils.BackendBackoff
