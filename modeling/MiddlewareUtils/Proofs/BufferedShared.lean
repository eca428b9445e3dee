import MiddlewareUtils.Proofs.BufferedAdmission
import MiddlewareUtils.Proofs.BufferedRecovery

/-!
# The previous window of several limiters

A limiter keeps the buffer of a window for one more window, and while it has
the buffer it does not ask Redis: `bufferedCountLocked` answers with
`redisKnown + localDelta`. Nothing refreshes `redisKnown` there. What the
limiter read with its own last GET or EVAL is all it knows, and what another
limiter flushed after that is missing from the count it weighs into the next
window. `lateFlush` is that run: a hit in Redis that nobody sees.

A cached count goes out of date in one way, and that is when an EVAL is
applied to the key. So the condition is on those steps: an EVAL finds the
limiter without a reply of a GET still to be stored, and, unless the EVAL is
its own, without a buffer. Under it the limiter tracks Redis (`Tracks`):
replies in hand are current, and so is the buffer, except between an EVAL of
its own and its acknowledgement.
-/

namespace MiddlewareUtils.WindowCounter

open Lib

/-- An EVAL applied to `k` outdates nothing limiter `i` has of `k`. -/
def NothingOutdated {n : ℕ} (i : Fin n) (k : WindowKey) (w : World n) : Action n → Prop
  | .eval p none => ∀ x ∈ w.procs p, x.pc.inFlight = some k →
      (x.limiter ≠ i → (w.limiters i).windows k = none) ∧
        ∀ q < w.next, ∀ y ∈ w.procs q, y.limiter = i → ∀ reply ∈ y.pc.stores, reply.1 ≠ k
  | _ => True

instance {n : ℕ} (i : Fin n) (k : WindowKey) (w : World n) :
    (a : Action n) → Decidable (NothingOutdated i k w a)
  | .eval p none => inferInstanceAs (Decidable (∀ x ∈ w.procs p, x.pc.inFlight = some k →
      (x.limiter ≠ i → (w.limiters i).windows k = none) ∧
        ∀ q < w.next, ∀ y ∈ w.procs q, y.limiter = i → ∀ reply ∈ y.pc.stores, reply.1 ≠ k))
  | .eval _ (some _) | .take .. | .peek .. | .sleep _ | .wake _ | .close _ | .fire .. | .get ..
  | .run .. | .expire .. => isTrue trivial

/-! ## Tracking a key -/

structure Tracks {n : ℕ} (i : Fin n) (k : WindowKey) (w : World n) : Prop where
  stored : ∀ p pc v, w.procs p = some ⟨i, pc⟩ → pc.stores = some (k, v) → v = w.redis.get k
  landed : ∀ p pc v, w.procs p = some ⟨i, pc⟩ → pc.landed = some (k, v) → v = w.redis.get k
  known : ∀ j, (w.limiters i).windows k = some j →
    ((w.limiters i).states j).redisKnown = w.redis.get k ∨
      ∃ p pc v, w.procs p = some ⟨i, pc⟩ ∧ pc.landed = some (k, v)

section Steps

variable {n : ℕ} {w w' : World n} {a : Action n} {i : Fin n} {k : WindowKey} {redis : Store}
  {p : ℕ} {pc : Pc}

theorem Moved.fresh (hm : Moved w a w') (hf : w'.Fresh k) : w.Fresh k := by
  have hread : ∀ now, (w.reading now).Fresh k → w.Fresh k :=
    fun now hf t ht => lt_of_le_of_lt (le_max_left _ _) (hf t ht)
  cases hm with
  | takeRefused | peekRefused | expired => exact hread _ hf
  | took | peeked => exact hread _ fun t ht => hf t (mem_ask ht)
  | piece => exact hread _ hf
  | _ => exact hf

theorem Moved.get_redis (hm : Moved w a w') (hled : LedgerInv redis w) (hf : w'.Fresh k) :
    w'.redis.get k = w.redis.get k ∨
      ∃ p i f job rest, a = .eval p none ∧ w.procs p = some ⟨i, .evaling f job rest⟩ ∧
        job.key = k := by
  cases hm with
  | @evaled p i f job rest r hp hr =>
    by_cases hk : job.key = k
    · exact .inr ⟨p, i, f, job, rest, rfl, hp, hk⟩
    · left
      show r.get k = _
      rw [hr, Store.get_flush_of_ne (Ne.symm hk)]
  | @expired k' now t hexp hnow =>
    left
    refine Store.get_lose_of_ne ?_
    rintro rfl
    -- the lost key would have been outlived by this very reading
    obtain ⟨e, he, ht⟩ := Option.bind_eq_some_iff.mp hexp
    have hlt : max w.clock (unix now) < t := hf t (hled.expiry k e t he ht)
    omega
  | _ => exact .inl rfl

theorem Begins.carries_nothing (h : Begins i a pc) : pc.stores = none ∧ pc.landed = none := by
  cases h <;> exact ⟨rfl, rfl⟩

theorem Moved.stores (hm : Moved w a w') {v : ℤ} (hp : w'.procs p = some ⟨i, pc⟩)
    (hs : pc.stores = some (k, v)) :
    (∃ old, w.procs p = some ⟨i, old⟩ ∧ old.stores = some (k, v)) ∨
      a = .get p none ∧ v = w.redis.get k := by
  rcases hm.proc hp with hold | ⟨_, hbegins⟩ | ⟨old, hold, hmove⟩
  · exact .inl ⟨pc, hold, hs⟩
  · rw [hbegins.carries_nothing.1] at hs
    cases hs
  · cases hmove with
    | acquired => exact .inl ⟨_, hold, hs⟩
    | piece hpm =>
      rw [hpm.carries.stores] at hs
      cases hs
    | @got g => cases g <;> cases hs <;> exact .inr ⟨rfl, rfl⟩
    | @gotError g => cases g <;> cases hs
    | _ => cases hs

theorem Moved.landed (hm : Moved w a w') {v : ℤ} (hp : w'.procs p = some ⟨i, pc⟩)
    (hl : pc.landed = some (k, v)) :
    (∃ old, w.procs p = some ⟨i, old⟩ ∧ old.landed = some (k, v)) ∨
      a = .eval p none ∧ v = w'.redis.get k := by
  rcases hm.proc hp with hold | ⟨_, hbegins⟩ | ⟨old, hold, hmove⟩
  · exact .inl ⟨pc, hold, hl⟩
  · rw [hbegins.carries_nothing.2] at hl
    cases hl
  · cases hmove with
    | acquired => exact .inl ⟨_, hold, hl⟩
    | piece hpm =>
      rw [hpm.carries.landed] at hl
      cases hl
    | evaled hr =>
      cases hl
      cases hm with
      | evaled hp' hr' =>
        rw [hold] at hp'
        cases hp'
        refine .inr ⟨rfl, ?_⟩
        show _ = Store.get _ _
        rw [hr, hr']
        rfl
    | @got g => cases g <;> cases hl
    | @gotError g => cases g <;> cases hl
    | _ => cases hl

theorem Moved.landed_from (hm : Moved w a w') {v : ℤ} (hled : LedgerInv redis w)
    (hp : w.procs p = some ⟨i, pc⟩) (hl : pc.landed = some (k, v)) :
    (∃ pc', w'.procs p = some ⟨i, pc'⟩ ∧ pc'.landed = some (k, v)) ∨
      ∃ inp t l next evs, pc = .held t ∧ PieceMove i (w.limiters i) inp t l next evs ∧
        w'.limiters i = next.unlock l := by
  have hborn : p ≠ w.next := by
    rintro rfl
    rw [hled.unborn _ (le_refl _)] at hp
    cases hp
  rcases hm.proc_from hp hborn with hstay | ⟨pc', hp', hmove⟩
  · exact .inl ⟨pc, hstay, hl⟩
  · cases hmove with
    | acquired => exact .inl ⟨_, hp', hl⟩
    | piece hpm hlim => exact .inr ⟨_, _, _, _, _, rfl, hpm, hlim⟩
    | _ => cases hl

theorem LedgerInv.flushes (hp : w.procs p = some ⟨i, pc⟩) (hpc : pc.inFlight = some k) :
    Flushes (w.procs p) (i, k) := by
  obtain ⟨job, hjob, hkey⟩ := Pc.inFlight_mem hpc
  rw [hp]
  exact ⟨rfl, List.mem_map.mpr ⟨job, hjob, hkey⟩⟩

theorem LedgerInv.mapped_of_inFlight (hled : LedgerInv redis w)
    (hp : w.procs p = some ⟨i, pc⟩) (hpc : pc.inFlight = some k) :
    (w.limiters i).windows k ≠ none := by
  have hok := hled.owned.held p (i, k) (LedgerInv.flushes hp hpc)
  obtain ⟨job, hjob, hkey⟩ := Pc.inFlight_mem hpc
  rw [hp] at hok
  have hflush : ((w.limiters i).windows k).map _ = some job.delta := (hok job hjob hkey).1
  intro hnone
  rw [hnone] at hflush
  cases hflush

namespace Tracks

theorem acked {v : ℤ} {t : Todo} {inp : Input} {l : Limiter} {next : Next}
    {evs : List (Event n)} {j : Ptr} (hled : LedgerInv redis w)
    (hp : w.procs p = some ⟨i, .held t⟩) (ht : t.landed = some (k, v))
    (hpm : PieceMove i (w.limiters i) inp t l next evs) (hj : l.windows k = some j) :
    (l.states j).redisKnown = v := by
  cases hpm with
  | evalAcked =>
    cases ht
    obtain ⟨j', hj', -⟩ := hled.owner hp
    obtain ⟨-, ⟨_, hv⟩ | ⟨hne, _⟩⟩ := ack_known (hled.sound i) hj' hj
    · exact hv
    · exact absurd rfl hne
  | _ => cases ht

theorem known_step (h : Tracks i k w) (hled : LedgerInv redis w) (hm : Moved w a w')
    (hget : w'.redis.get k = w.redis.get k) {j : Ptr}
    (hj : (w'.limiters i).windows k = some j) :
    ((w'.limiters i).states j).redisKnown = w'.redis.get k ∨
      ∃ p pc v, w'.procs p = some ⟨i, pc⟩ ∧ pc.landed = some (k, v) := by
  rw [hget]
  -- an acknowledgement by whoever had the EVAL in hand
  have hack : ∀ {p t v inp l next evs}, w.procs p = some ⟨i, .held t⟩ →
      t.landed = some (k, v) → PieceMove i (w.limiters i) inp t l next evs →
      w'.limiters i = next.unlock l →
      ((w'.limiters i).states j).redisKnown = w.redis.get k := by
    intro p t v inp l next evs hp ht hpm hlim
    have hsame : SameBuffers l (next.unlock l) := Next.unlock_same
    rw [hlim, hsame.windows] at hj
    rw [hlim, hsame.states, acked hled hp ht hpm hj]
    exact h.landed p _ v hp ht
  have hold : (w.limiters i).windows k = some j →
      ((w'.limiters i).states j).redisKnown = ((w.limiters i).states j).redisKnown →
      ((w'.limiters i).states j).redisKnown = w.redis.get k ∨
        ∃ p pc v, w'.procs p = some ⟨i, pc⟩ ∧ pc.landed = some (k, v) := by
    intro hmap heq
    rcases h.known j hmap with hk | ⟨p, pc, v, hp, hl⟩
    · exact .inl (heq.trans hk)
    · rcases hm.landed_from hled hp hl with ⟨pc', hp', hl'⟩ | ⟨inp, t, l, next, evs, rfl, hpm, hlim⟩
      · exact .inr ⟨p, pc', v, hp', hl'⟩
      · exact .inl (hack hp hl hpm hlim)
  rcases hm.limiter i with hsame | ⟨q, inp, t, l, next, evs, _, hq, hpm, _, hlim⟩
  · exact hold (hsame.windows ▸ hj) (by rw [hsame.states])
  · have hsame : SameBuffers l (next.unlock l) := Next.unlock_same
    have hjl : l.windows k = some j := by
      rw [hlim, hsame.windows] at hj
      exact hj
    have hstates : (w'.limiters i).states = l.states := by rw [hlim, hsame.states]
    cases hland : t.landed with
    | none =>
      rcases hpm.known (hled.sound i) hland hjl with ⟨hmap, heq⟩ | ⟨v, hv, _, heq⟩
      · exact hold hmap (by rw [hstates, heq])
      · left
        rw [hstates, heq]
        exact h.stored q _ v hq hv
    | some x =>
      obtain ⟨k', v⟩ := x
      by_cases hk : k' = k
      · subst hk
        exact .inl (hack hq hland hpm hlim)
      · cases hpm with
        | evalAcked =>
          cases hland
          obtain ⟨j', hj', -⟩ := hled.owner hq
          obtain ⟨hmap, ⟨hk', _⟩ | ⟨_, heq⟩⟩ := ack_known (hled.sound i) hj' hjl
          · exact absurd hk' hk
          · exact hold hmap (by rw [hstates, heq])
        | _ => cases hland

theorem evaled {i' : Fin n} {f : Flush} {job : Job} {rest : List Job} (hled : LedgerInv redis w)
    (hp : w.procs p = some ⟨i', .evaling f job rest⟩)
    (hcond : NothingOutdated i job.key w (.eval p none)) (hm : Moved w (.eval p none) w') :
    Tracks i job.key w' := by
  obtain ⟨hbuffer, hreply⟩ := hcond _ hp rfl
  have hother : ∀ q qc, q ≠ p → w'.procs q = some ⟨i, qc⟩ → w.procs q = some ⟨i, qc⟩ := by
    intro q qc hne hq
    rcases hm.proc hq with hold | ⟨_, hbegins⟩ | ⟨old, hold, hmove⟩
    · exact hold
    · cases hbegins
    · cases hmove
      exact absurd rfl hne
  -- the one EVAL of this limiter on the key is this one
  have hsole : ∀ q qc v, q ≠ p → w'.procs q = some ⟨i, qc⟩ → qc.landed ≠ some (job.key, v) := by
    intro q qc v hne hq hl
    have hold := hother q qc hne hq
    have hflight := Pc.landed_inFlight hl
    by_cases hi : i' = i
    · subst hi
      exact hne (hled.owned.unique q p (i', job.key) (LedgerInv.flushes hold hflight)
        (LedgerInv.flushes hp rfl))
    · exact hled.mapped_of_inFlight hold hflight (hbuffer hi)
  refine ⟨?_, ?_, ?_⟩
  · intro q qc v hq hs
    rcases hm.stores hq hs with ⟨old, hold, hs'⟩ | ⟨hget, _⟩
    · have hlt : q < w.next := by
        by_contra hge
        rw [hled.unborn q (not_lt.mp hge)] at hold
        cases hold
      exact absurd rfl (hreply q hlt _ hold rfl _ hs')
    · cases hget
  · intro q qc v hq hl
    rcases hm.landed hq hl with ⟨old, hold, hl'⟩ | ⟨_, hv⟩
    · by_cases hqp : q = p
      · subst hqp
        rw [hp] at hold
        cases hold
        cases hl'
      · exact absurd hl (hsole q qc v hqp hq)
    · exact hv
  · intro j hj
    cases hm with
    | evaled hp' hr =>
      rw [hp] at hp'
      cases hp'
      by_cases hi : i' = i
      · subst hi
        exact .inr ⟨p, _, _, Function.update_self .., rfl⟩
      · have hj : (w.limiters i).windows job.key = some j := hj
        rw [hbuffer hi] at hj
        cases hj

theorem step (h : Tracks i k w) (hled : LedgerInv redis w) (hm : Moved w a w')
    (hcond : NothingOutdated i k w a) (hf : w'.Fresh k) : Tracks i k w' := by
  rcases hm.get_redis hled hf with hget | ⟨p, i', f, job, rest, rfl, hp, rfl⟩
  · refine ⟨?_, ?_, fun j => h.known_step hled hm hget⟩
    · intro q qc v hq hs
      rw [hget]
      rcases hm.stores hq hs with ⟨old, hold, hs'⟩ | ⟨_, hv⟩
      · exact h.stored q old v hold hs'
      · exact hv
    · intro q qc v hq hl
      rcases hm.landed hq hl with ⟨old, hold, hl'⟩ | ⟨_, hv⟩
      · rw [hget]
        exact h.landed q old v hold hl'
      · exact hv
  · exact evaled hled hp hcond hm

end Tracks

end Steps

/-! ## The count a call uses -/

/-- Every delta of `k` is flushed and acknowledged. -/
def World.Settled {n : ℕ} (w : World n) (k : WindowKey) : Prop :=
  (∀ i, (w.limiters i).pendingDelta k = 0) ∧
    ∀ p < w.next, ∀ x ∈ w.procs p, x.pc.inFlight ≠ some k

instance {n : ℕ} (w : World n) (k : WindowKey) : Decidable (w.Settled k) :=
  inferInstanceAs (Decidable ((∀ i, (w.limiters i).pendingDelta k = 0) ∧
    ∀ p < w.next, ∀ x ∈ w.procs p, x.pc.inFlight ≠ some k))

/-- A Peek that has its current count and looks at the previous window. -/
def Todo.peeked : Todo → Option (SlidingWindow × ℤ × ℤ)
  | .peekPrev sl limit current | .peekPrevApply sl limit current _ => some (sl, limit, current)
  | _ => none

section Lookup

variable {n : ℕ} {w w' : World n} {i : Fin n} {k : WindowKey} {redis : Store} {p : ℕ}

theorem LedgerInv.not_inFlight (hled : LedgerInv redis w) (hs : w.Settled k) (p : ℕ) (i : Fin n) :
    ¬w.InFlight p i k := by
  rintro ⟨pc, hp, hpc⟩
  refine hs.2 p ?_ _ hp hpc
  by_contra hge
  rw [hled.unborn p (not_lt.mp hge)] at hp
  cases hp

theorem LedgerInv.get_settled (hled : LedgerInv redis w) (hf : w.Fresh k) (hs : w.Settled k) :
    w.redis.get k = redis.get k + ∑ i, w.hits i k := by
  rw [hled.total k hf]
  congr 1
  refine Finset.sum_congr rfl fun i _ => ?_
  rw [hled.applied_of_quiet fun p => hled.not_inFlight hs p i, hled.conserve i k hf, hs.1 i,
    add_zero]

theorem Moved.ran {inp : Input} {t : Todo} (hm : Moved w (.run p inp) w')
    (hp : w.procs p = some ⟨i, .held t⟩) :
    ∃ l next evs, PieceMove i (w.limiters i) inp t l next evs ∧
      w'.procs p = some ⟨i, next.pc⟩ := by
  cases hm with
  | piece hp' hpm =>
    rw [hp] at hp'
    cases hp'
    exact ⟨_, _, _, hpm, Function.update_self ..⟩
  | acquired hp' | tickDone hp' | stopInTime hp' | stopLate hp' | stopDone hp' | stopWaited hp' =>
    rw [hp] at hp'
    cases hp'

theorem Next.hold_of_pc {l l' : Limiter} {inp : Input} {t t' : Todo} {next : Next}
    {evs : List (Event n)} (hm : PieceMove i l inp t l' next evs) (h : next.pc = .held t') :
    next = .hold t' := by
  cases next with
  | hold t₁ => exact congrArg Next.hold (Pc.held.inj h)
  | release pc =>
    have hheld := Locked.release_not_held hm rfl
    rw [show pc = .held t' from h] at hheld
    cases hheld

theorem Tracks.known_of_quiet {j : Ptr} (h : Tracks i k w) (hquiet : ∀ p, ¬w.InFlight p i k)
    (hj : (w.limiters i).windows k = some j) :
    ((w.limiters i).states j).redisKnown = w.redis.get k := by
  rcases h.known j hj with hk | ⟨p, pc, v, hp, hl⟩
  · exact hk
  · exact absurd ⟨pc, hp, Pc.landed_inFlight hl⟩ (hquiet p)

theorem Tracks.count {j : Ptr} (h : Tracks i k w) (hquiet : ∀ p, ¬w.InFlight p i k)
    (hj : (w.limiters i).windows k = some j) :
    (w.limiters i).count j = w.redis.get k + (w.limiters i).pendingDelta k := by
  rw [Limiter.count, h.known_of_quiet hquiet hj, pendingDelta_of_windows hj]

theorem count_applyGet {l : Limiter} {v e : ℤ} {now : ℕ}
    (hknown : ∀ j, l.windows k = some j → (l.states j).redisKnown = v) :
    ((l.contacted now).applyGet k v e).1.count ((l.contacted now).applyGet k v e).2 =
      v + l.pendingDelta k := by
  unfold Limiter.applyGet
  cases hk : (l.contacted now).windows k with
  | none =>
    have hk : l.windows k = none := hk
    dsimp only [Limiter.count]
    rw [Function.update_self, Limiter.pendingDelta, hk]
  | some j =>
    have hj : l.windows k = some j := hk
    rw [pendingDelta_of_windows hj]
    dsimp only
    split
    next hzero =>
      rw [Limiter.count, states_setState_self, states_raise]
      rfl
    · rw [Limiter.count, states_raise]
      exact congrArg (· + _) (hknown j hj)

theorem Tracks.count_applyGet {pc : Pc} {v e : ℤ} {now : ℕ} (h : Tracks i k w)
    (hquiet : ∀ p, ¬w.InFlight p i k) (hp : w.procs p = some ⟨i, pc⟩)
    (hs : pc.stores = some (k, v)) :
    (((w.limiters i).contacted now).applyGet k v e).1.count
        (((w.limiters i).contacted now).applyGet k v e).2 =
      w.redis.get k + (w.limiters i).pendingDelta k := by
  have hv := h.stored p pc v hp hs
  rw [← hv]
  refine WindowCounter.count_applyGet fun j hj => ?_
  rw [hv]
  exact h.known_of_quiet hquiet hj

theorem Tracks.uses {t : Todo} {inp : Input} {l : Limiter} {next : Next} {evs : List (Event n)}
    {c : ℤ} (h : Tracks i k w) (hquiet : ∀ p, ¬w.InFlight p i k)
    (hc : w.redis.get k + (w.limiters i).pendingDelta k = c)
    (hp : w.procs p = some ⟨i, .held t⟩) (hm : PieceMove i (w.limiters i) inp t l next evs) :
    (∀ sl limit cur previous, next = .hold (.takeHit sl limit cur previous) →
      sl.previousKey = k → previous = c) ∧
    ∀ sl limit current ans, t.peeked = some (sl, limit, current) → sl.previousKey = k →
      next = .hold (.outage ans) →
      ans = ⟨decide ((current : ℚ) + c * sl.weight ≤ limit), (current : ℚ) + c * sl.weight⟩ := by
  subst hc
  constructor
  · rintro sl limit cur previous hnext rfl
    cases hm with
    | takePrevBuffered hmap => cases hnext; exact h.count hquiet hmap
    | takePrevSeed => cases hnext; exact h.count_applyGet hquiet hp rfl
    | evict =>
      unfold afterFlush at hnext
      split at hnext <;> cases hnext
    | _ => cases hnext
  · rintro sl limit current ans hpeek rfl hnext
    cases hm with
    | peekPrevBuffered hmap hans =>
      cases hpeek
      cases hnext
      rw [hans, h.count hquiet hmap]
    | peekPrevSeed hr hans =>
      cases hpeek
      cases hnext
      rw [hans, hr, h.count_applyGet hquiet hp rfl]
    | peekPrevMiss | peekPrevFailed => cases hnext
    | _ => cases hpeek

end Lookup

/-- In every run in which no EVAL on `k` outdates what limiter `i` has of
`k`: in every state where all limiters have flushed `k`, and `k` has not
expired, Redis holds the hits of all of them, and that is the previous count
of any Take or Peek of limiter `i` that looks it up. -/
theorem previous_count_shared {n : ℕ} (redis : Store) (limiters : Fin n → Limiter)
    (hnew : ∀ i, ∃ rate, 0 < rate ∧ Limiter.new rate = some (limiters i)) (i : Fin n)
    (k : WindowKey) (acts : List (Action n)) (w : World n)
    (hrun : run World.step (World.init redis limiters) acts = some w)
    (hcurrent : Along World.step (NothingOutdated i k) (World.init redis limiters) acts)
    (hfresh : w.Fresh k) (hsettled : w.Settled k) :
    w.redis.get k = redis.get k + ∑ i, w.hits i k ∧
    ∀ p t inp w', w.procs p = some ⟨i, .held t⟩ → w.step (.run p inp) = some w' →
      (∀ sl limit cur previous, sl.previousKey = k →
        w'.procs p = some ⟨i, .held (.takeHit sl limit cur previous)⟩ →
        previous = w.redis.get k) ∧
      ∀ sl limit current ans, t.peeked = some (sl, limit, current) → sl.previousKey = k →
        w'.procs p = some ⟨i, .held (.outage ans)⟩ →
        ans = ⟨decide ((current : ℚ) + w.redis.get k * sl.weight ≤ limit),
          (current : ℚ) + w.redis.get k * sl.weight⟩ := by
  have hstep : ∀ s a s', LedgerInv redis s ∧ (s.Fresh k → Tracks i k s) →
      NothingOutdated i k s a → World.step s a = some s' →
      LedgerInv redis s' ∧ (s'.Fresh k → Tracks i k s') := by
    rintro s a s' ⟨hled, htracks⟩ hcond hs
    have hm := Moved.of_step hs
    exact ⟨hled.step hs, fun hf => (htracks (hm.fresh hf)).step hled hm hcond hf⟩
  have hinit : Tracks i k (World.init redis limiters) := by
    refine ⟨fun _ _ _ hp => (nomatch hp), fun _ _ _ hp => (nomatch hp), fun j hj => ?_⟩
    obtain ⟨rate, _, hrate⟩ := hnew i
    have hj : (limiters i).windows k = some j := hj
    rw [(Limiter.new_empty hrate).1] at hj
    cases hj
  obtain ⟨hled, htracks⟩ :=
    run_inv_along hstep hcurrent ⟨ledgerInv_init hnew, fun _ => hinit⟩ hrun
  have htracks := htracks hfresh
  refine ⟨hled.get_settled hfresh hsettled, ?_⟩
  intro p t inp w' hp hs
  obtain ⟨l, next, evs, hpm, hp'⟩ := (Moved.of_step hs).ran hp
  obtain ⟨htake, hpeek⟩ := htracks.uses (fun p => hled.not_inFlight hsettled p i)
    (by rw [hsettled.1 i, add_zero]) hp hpm
  constructor
  · intro sl limit cur previous hk hhit
    rw [hp'] at hhit
    exact htake sl limit cur previous
      (Next.hold_of_pc hpm (Proc.mk.inj (Option.some.inj hhit)).2) hk
  · intro sl limit current ans ht hk hout
    rw [hp'] at hout
    exact hpeek sl limit current ans ht hk
      (Next.hold_of_pc hpm (Proc.mk.inj (Option.some.inj hout)).2)

def flusher : Fin 2 := ⟨0, Nat.two_pos⟩

def looker : Fin 2 := ⟨1, Nat.one_lt_two⟩

/-- Limiter 0 counts a hit and flushes it; a Take of limiter 1 in the next
window finds nothing buffered and asks Redis. -/
def firstLook : List (Action 2) :=
  takeAlone flusher 0 ++ flushAlone flusher 0 1 ++
    [Action.take looker "k" 5 1000000000 1000000000] ++ piecesAt 2 2 1000000000 ++
    [Action.get 2 none] ++ piecesAt 2 3 1000000000 ++ [Action.get 2 none] ++
    piecesAt 2 1 1000000000

theorem previous_count_shared_firstLook :
    ∃ w w' sl cur previous,
      run World.step (World.init Store.empty fun _ => everySecond) firstLook = some w ∧
      w.step (.run 2 ⟨1000000000, [], none⟩) = some w' ∧
      w'.procs 2 = some ⟨1, .held (.takeHit sl 5 cur previous)⟩ ∧
      w.redis.get ⟨"k", 0⟩ = 1 ∧ previous = w.redis.get ⟨"k", 0⟩ := by
  refine ⟨_, _, _, _, _, rfl, rfl, rfl, by decide +kernel, ?_⟩
  exact ((previous_count_shared Store.empty (fun _ => everySecond)
    (fun _ => ⟨1000000000, by decide, (Option.some_get _).symm⟩) 1 ⟨"k", 0⟩ firstLook _ rfl
    (by decide +kernel) (by decide +kernel) (by decide +kernel)).2 2 _ _ _ rfl rfl).1
    _ _ _ _ rfl rfl

/-- Limiter 1 has looked at the window with a Peek when limiter 0 counts its
hit and flushes it; then a Take of limiter 1 in the next window looks back. -/
def lateFlush : List (Action 2) :=
  [Action.peek looker "k" 5 1000000000 0] ++ pieces 0 2 ++ [Action.get 0 none] ++ pieces 0 3 ++
    [Action.get 0 none] ++ pieces 0 3 ++ takeAlone flusher 1 ++ flushAlone flusher 0 2 ++
    [Action.take looker "k" 5 1000000000 1000000000] ++ piecesAt 3 2 1000000000 ++
    [Action.get 3 none] ++ piecesAt 3 2 1000000000

/-- The hit is in Redis, every clock is in the next window, and the Take of
limiter 1 uses none. -/
theorem lateFlush_previous_count :
    ∃ w w' sl cur previous,
      run World.step (World.init Store.empty fun _ => everySecond) lateFlush = some w ∧
      w.Fresh ⟨"k", 0⟩ ∧ w.Settled ⟨"k", 0⟩ ∧ (∀ a ∈ lateFlush, a.redisUp = true) ∧
      w.step (.run 3 ⟨1000000000, [], none⟩) = some w' ∧
      w'.procs 3 = some ⟨1, .held (.takeHit sl 5 cur previous)⟩ ∧ sl.previousKey = ⟨"k", 0⟩ ∧
      w.redis.get ⟨"k", 0⟩ = 1 ∧ w.hits 0 ⟨"k", 0⟩ = 1 ∧ previous = 0 :=
  ⟨_, _, _, _, _, rfl, by decide +kernel, by decide +kernel, by decide +kernel, rfl, rfl, rfl,
    by decide +kernel, by decide +kernel, by decide +kernel⟩

end MiddlewareUtils.WindowCounter
