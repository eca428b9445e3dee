import MiddlewareUtils.Proofs.BufferedLedger
import Mathlib.Tactic.Linarith

/-!
# What one buffered limiter admits

A Take answers from `redisKnown + localDelta` of the buffer it counted its
hit in. The conservation of hits makes that at least the number of hits so
far as long as `redisKnown` is at least what was acknowledged, and then no
more than `limit` Takes of a window are allowed.

`redisKnown` comes from two places. An EVAL's reply counts the delta it
acknowledges. A GET's reply is as old as the time the lock was away: if a
flush of the same window was applied and acknowledged meanwhile, then
`localDelta` is zero again, `applyGetLocked` stores the old count over the
new one, and the window forgets the hits it had flushed. `staleGet` is that
run: limit one, two Takes allowed.

So the bound is proved for runs in which a GET's reply, when it is stored,
is still what Redis holds, and in which the Takes of the window decide
before a clock reading has outlived it.
-/

namespace MiddlewareUtils.WindowCounter

open Lib Function

/-! ## What a call carries -/

namespace Todo

def stores : Todo → Option (WindowKey × ℤ)
  | takeApply sl _ (.ok v) | peekApply sl _ (.ok v) => some (sl.currentKey, v)
  | takePrevApply sl _ _ (.ok v) | peekPrevApply sl _ _ (.ok v) => some (sl.previousKey, v)
  | _ => none

def counts : Todo → Option WindowKey
  | takeHit sl _ _ _ => some sl.currentKey
  | _ => none

def previous : Todo → Option ℤ
  | takeHit _ _ _ previous => some previous
  | _ => none

end Todo

namespace Pc

def stores : Pc → Option (WindowKey × ℤ)
  | lock t | held t => t.stores
  | _ => none

def previous : Pc → Option ℤ
  | lock t | held t => t.previous
  | _ => none

def due : Pc → Option Todo
  | held t => some t
  | _ => none

end Pc

/-! ## What a piece does to the known counts -/

structure KeepsKnown (l l' : Limiter) : Prop where
  windows : ∀ k j, l'.windows k = some j → l.windows k = some j
  known : ∀ j, (l'.states j).redisKnown = (l.states j).redisKnown

section Known

variable {n : ℕ} {w : World n} {i : Fin n} {l l' : Limiter} {inp : Input} {next : Next}
  {evs : List (Event n)} {t : Todo} {k : WindowKey} {j : Ptr}

theorem SameBuffers.keepsKnown (h : SameBuffers l l') : KeepsKnown l l' :=
  ⟨fun k j hk => by rw [h.windows] at hk; exact hk, fun j => by rw [h.states]⟩

theorem keepsKnown_setState {st : WindowState}
    (h : st.redisKnown = (l.states j).redisKnown) : KeepsKnown l (l.setState j st) := by
  refine ⟨fun _ _ hk => hk, fun j' => ?_⟩
  by_cases hj : j' = j
  · subst hj; rw [states_setState_self, h]
  · rw [states_setState_of_ne hj]

theorem keepsKnown_raise {e : ℤ} : KeepsKnown l (l.raise j e) := by
  unfold Limiter.raise
  split
  · exact keepsKnown_setState rfl
  · exact (SameBuffers.refl l).keepsKnown

theorem keepsKnown_hit : KeepsKnown l (l.hit j) := keepsKnown_setState rfl

theorem keepsKnown_snapshot : KeepsKnown l l.snapshot := by
  refine ⟨fun _ _ hk => hk, fun j => ?_⟩
  by_cases hj : j ∈ l.pending
  · rw [states_snapshot_of_mem hj]
  · rw [states_snapshot_of_not_mem hj]

theorem keepsKnown_nack : KeepsKnown l (l.nack k) := by
  unfold Limiter.nack
  split
  · exact (SameBuffers.refl l).keepsKnown
  · exact keepsKnown_setState rfl

theorem applyGet_known (hs : Sound w l) {k' : WindowKey} {v e : ℤ}
    (hk : (l.applyGet k' v e).1.windows k = some j) :
    (l.windows k = some j ∧
        ((l.applyGet k' v e).1.states j).redisKnown = (l.states j).redisKnown) ∨
      (k' = k ∧ l.pendingDelta k = 0 ∧
        ((l.applyGet k' v e).1.states j).redisKnown = v) := by
  unfold Limiter.applyGet at hk ⊢
  cases hmap : l.windows k' with
  | none =>
    rw [hmap] at hk
    dsimp only at hk ⊢
    by_cases hc : k = k'
    · subst hc
      rw [update_self] at hk
      injection hk with hk
      subst hk
      rw [update_self]
      exact .inr ⟨rfl, by rw [Limiter.pendingDelta, hmap], rfl⟩
    · rw [update_of_ne hc] at hk
      rw [update_of_ne (ne_of_lt (hs.mapped k j hk).2)]
      exact .inl ⟨hk, rfl⟩
  | some j' =>
    rw [hmap] at hk
    dsimp only at hk ⊢
    have hraise := keepsKnown_raise (l := l) (j := j') (e := e)
    by_cases hzero : ((l.raise j' e).states j').localDelta = 0
    · rw [if_pos hzero] at hk ⊢
      have hold := hraise.windows k j hk
      by_cases hj : j = j'
      · subst hj
        have hkey : k' = k := (hs.mapped k' j hmap).1.symm.trans (hs.mapped k j hold).1
        rw [states_raise] at hzero
        rw [states_setState_self]
        exact .inr ⟨hkey, (pendingDelta_of_windows hold).trans hzero, rfl⟩
      · rw [states_setState_of_ne hj]
        exact .inl ⟨hold, hraise.known j⟩
    · rw [if_neg hzero] at hk ⊢
      exact .inl ⟨hraise.windows k j hk, hraise.known j⟩

theorem ack_known (hs : Sound w l) {k' : WindowKey} {j' : Ptr} {v d : ℤ} {now : ℕ}
    (hmap : l.windows k' = some j') (hk : (l.ack k' v d now).windows k = some j) :
    l.windows k = some j ∧
      ((k' = k ∧ ((l.ack k' v d now).states j).redisKnown = v) ∨
        (k' ≠ k ∧ ((l.ack k' v d now).states j).redisKnown = (l.states j).redisKnown)) := by
  rw [Limiter.ack, hmap] at hk ⊢
  have hold : l.windows k = some j := hk
  refine ⟨hold, ?_⟩
  by_cases hc : k' = k
  · subst hc
    rw [hmap] at hold
    injection hold with hold
    subst hold
    exact .inl ⟨rfl, by dsimp only; rw [states_setState_self]⟩
  · have hj : j ≠ j' := fun hj =>
      hc ((hs.mapped k' j' hmap).1.symm.trans (hj ▸ (hs.mapped k j hold).1))
    exact .inr ⟨hc, by dsimp only; rw [states_setState_of_ne hj]⟩

theorem KeepsKnown.spec (h : KeepsKnown l l') (hk : l'.windows k = some j) :
    (l.windows k = some j ∧ (l'.states j).redisKnown = (l.states j).redisKnown) ∨
      ∃ v, t.stores = some (k, v) ∧ l.pendingDelta k = 0 ∧ (l'.states j).redisKnown = v :=
  Or.inl ⟨h.windows k j hk, h.known j⟩

theorem PieceMove.known (hm : PieceMove i l inp t l' next evs) (hs : Sound w l)
    (hland : t.landed = none) (hk : l'.windows k = some j) :
    (l.windows k = some j ∧ (l'.states j).redisKnown = (l.states j).redisKnown) ∨
      ∃ v, t.stores = some (k, v) ∧ l.pendingDelta k = 0 ∧ (l'.states j).redisKnown = v := by
  have hcontact : Sound w (l.contacted inp.now) := hs.same sameBuffers_contacted
  have hseed : ∀ {k' v e}, ((l.contacted inp.now).applyGet k' v e).1.windows k = some j →
      (l.windows k = some j ∧ (((l.contacted inp.now).applyGet k' v e).1.states j).redisKnown =
          (l.states j).redisKnown) ∨
        ∃ v', some (k', v) = some (k, v') ∧ l.pendingDelta k = 0 ∧
          (((l.contacted inp.now).applyGet k' v e).1.states j).redisKnown = v' := by
    intro k' v e hk
    rcases applyGet_known hcontact hk with hold | ⟨rfl, hzero, hv⟩
    · exact .inl hold
    · exact .inr ⟨v, rfl, hzero, hv⟩
  cases hm with
  | takeRefresh | takeBuffered | peekBuffered => exact keepsKnown_raise.spec hk
  | takeSeed | takePrevSeed | peekSeed => exact hseed hk
  | peekPrevSeed hr => subst hr; exact hseed hk
  | takeHit => exact keepsKnown_hit.spec hk
  | flushStart => exact keepsKnown_snapshot.spec hk
  | evalFailed => exact keepsKnown_nack.spec hk
  | evalAcked => cases hland
  | @evict f =>
    have hstore : KeepsKnown (l.evict f.nowUnix)
        ((l.evict f.nowUnix).storeErr f.firstErr inp.now) := sameBuffers_storeErr.keepsKnown
    exact .inl ⟨(evict_windows.mp (hstore.windows k j hk)).1, hstore.known j⟩
  | probeFailed => exact sameBuffers_storeErr.keepsKnown.spec hk
  | wakeStarts => exact sameBuffers_startFlush.keepsKnown.spec hk
  | _ => exact (SameBuffers.keepsKnown ⟨rfl, rfl, rfl⟩).spec hk

end Known

structure Carries {n : ℕ} (l' : Limiter) (t : Todo) (pc : Pc) (evs : List (Event n)) : Prop where
  take : ∀ x, pc.take = some x → t.take = some x
  stores : pc.stores = none
  landed : pc.landed = none
  previous : ∀ v, pc.previous = some v → ∃ k j, l'.windows k = some j ∧ v = l'.count j
  quiet : t.counts = none → t.landed = none → evs = []

section Carrying

variable {n : ℕ} {i : Fin n} {l l' : Limiter} {inp : Input} {next : Next}
  {evs : List (Event n)} {t : Todo} {pc : Pc}

theorem Carries.take_only (htake : ∀ x, pc.take = some x → t.take = some x)
    (hs : pc.stores = none) (hl : pc.landed = none) (hp : pc.previous = none) :
    Carries l' t pc ([] : List (Event n)) :=
  ⟨htake, hs, hl, fun v hv => (by rw [hp] at hv; cases hv), fun _ _ => rfl⟩

theorem Carries.nothing (ht : pc.take = none) (hs : pc.stores = none) (hl : pc.landed = none)
    (hp : pc.previous = none) : Carries l' t pc ([] : List (Event n)) :=
  Carries.take_only (fun x hx => by rw [ht] at hx; cases hx) hs hl hp

theorem PieceMove.carries (hm : PieceMove i l inp t l' next evs) :
    Carries l' t next.pc evs := by
  cases hm with
  | takeMiss | takeRefresh | takeBuffered | takeSeed | takePrevMiss =>
    exact Carries.take_only (fun _ h => h) rfl rfl rfl
  | @takePrevBuffered _ _ _ j hmap =>
    exact ⟨fun _ h => h, rfl, rfl, fun v hv => ⟨_, j, hmap, (Option.some.inj hv).symm⟩,
      fun _ _ => rfl⟩
  | takePrevSeed =>
    exact ⟨fun _ h => h, rfl, rfl,
      fun v hv => ⟨_, _, applyGet_windows, (Option.some.inj hv).symm⟩, fun _ _ => rfl⟩
  | takeHit =>
    exact ⟨fun _ h => (nomatch h), rfl, rfl, fun _ h => (nomatch h), fun h => (nomatch h)⟩
  | evalAcked =>
    exact ⟨fun _ h => (nomatch h), rfl, rfl, fun _ h => (nomatch h), fun _ h => (nomatch h)⟩
  | @evict f =>
    refine Carries.nothing ?_ ?_ ?_ ?_ <;> cases hc : f.caller <;> rw [afterFlush, hc] <;> rfl
  | _ => exact Carries.nothing rfl rfl rfl rfl

end Carrying

/-! ## The invariant of one window -/

structure CallOk (k : WindowKey) (limit : ℤ) (w : World 1) (pc : Pc) : Prop where
  take : ∀ sl l, pc.take = some (sl, l) → 0 ≤ sl.weight ∧ (sl.currentKey = k → l = limit)
  stores : ∀ k' v, pc.stores = some (k', v) → 0 ≤ v
  landed : ∀ k' v, pc.landed = some (k', v) →
    0 ≤ v ∧ (k' = k → w.Fresh k → w.applied 0 k ≤ v)
  previous : ∀ v, pc.previous = some v → 0 ≤ v

structure AdmissionInv (k : WindowKey) (limit : ℤ) (w : World 1) : Prop where
  redis : ∀ k', 0 ≤ w.redis.get k'
  known : ∀ k' j, (w.limiters 0).windows k' = some j →
    0 ≤ ((w.limiters 0).states j).redisKnown
  calls : ∀ p i pc, w.procs p = some ⟨i, pc⟩ → CallOk k limit w pc
  ahead : w.Fresh k → ∀ j, (w.limiters 0).windows k = some j →
    w.acked 0 k ≤ ((w.limiters 0).states j).redisKnown
  counted : w.admitted 0 k ≤ w.hits 0 k
  bounded : w.admitted 0 k ≤ max limit 0

section Admission

variable {k : WindowKey} {limit : ℤ} {w w' : World 1} {redis : Store} {p : ℕ} {i : Fin 1}
  {pc pc' : Pc} {l' : Limiter} {evs : List (Event 1)}

theorem CallOk.mono (h : CallOk k limit w pc) (hfresh : w'.Fresh k → w.Fresh k)
    (happ : w'.applied 0 k = w.applied 0 k) : CallOk k limit w' pc :=
  { h with
    landed := fun k' v hv => ⟨(h.landed k' v hv).1, fun hk hf => by
      rw [happ]; exact (h.landed k' v hv).2 hk (hfresh hf)⟩ }

theorem CallOk.nothing (ht : pc.take = none) (hs : pc.stores = none) (hl : pc.landed = none)
    (hp : pc.previous = none) : CallOk k limit w pc where
  take := fun _ _ h => by rw [ht] at h; cases h
  stores := fun _ _ h => by rw [hs] at h; cases h
  landed := fun _ _ h => by rw [hl] at h; cases h
  previous := fun _ h => by rw [hp] at h; cases h

theorem LedgerInv.acked_le_applied (h : LedgerInv redis w) : w.acked i k ≤ w.applied i k := by
  by_cases hown : ∃ q, Flushes (w.procs q) (i, k)
  · obtain ⟨q, hq⟩ := hown
    have hok := h.owned.held q (i, k) hq
    cases hproc : w.procs q with
    | none => rw [hproc] at hq; exact hq.elim
    | some qp =>
      rw [hproc] at hq hok
      obtain ⟨job, hjob, hkey⟩ := List.mem_map.mp hq.2
      have hac : w.applied i k = w.acked i k + _ := (hok job hjob hkey).2
      have hpos := ((h.procs q qp.limiter qp.pc hproc).jobs job hjob).1
      split at hac <;> omega
  · exact le_of_eq (h.owned.rests (i, k) fun q hq => hown ⟨q, hq⟩).2.symm

theorem LedgerInv.applied_le_get (h : LedgerInv redis w) (hredis : ∀ k', 0 ≤ redis.get k')
    (hf : w.Fresh k) : w.applied 0 k ≤ w.redis.get k := by
  have htotal := h.total k hf
  rw [Fin.sum_univ_one] at htotal
  have := hredis k
  omega

theorem Event.admits_le_hits {n : ℕ} {i : Fin n} {e : Event n} : e.admits i k ≤ e.hits i k := by
  cases e with
  | hit i' k' allowed =>
    by_cases hc : i' = i ∧ k' = k
    · rw [Event.hits, if_pos hc, Event.admits]
      split <;> decide
    · rw [Event.hits, if_neg hc, Event.admits, if_neg fun h => hc h.1]
  | _ => exact le_refl _

theorem count_hit {l : Limiter} {j : Ptr} :
    (l.hit j).count j = (l.states j).redisKnown + ((l.states j).localDelta + 1) := by
  rw [Limiter.count, Limiter.hit, states_setState_self]

theorem AdmissionInv.hit_fits {sl : SlidingWindow} {lim previous : ℤ} {cur : Ptr}
    (h : AdmissionInv k limit w) (hl : LedgerInv redis w)
    (hp : w.procs p = some ⟨0, .held (.takeHit sl lim cur previous)⟩)
    (hk : sl.currentKey = k) (hf : w.Fresh k)
    (hallow : (((w.limiters 0).hit cur).count cur : ℚ) + previous * sl.weight ≤ lim) :
    w.hits 0 k + 1 ≤ limit := by
  subst hk
  have hcall := h.calls p 0 _ hp
  obtain ⟨hweight, hlimit⟩ := hcall.take sl lim rfl
  have hprev : 0 ≤ previous := hcall.previous previous rfl
  have hmap := ((hl.procs p 0 _ hp).cur _ _ rfl).mapped hf
  have hahead := h.ahead hf cur hmap
  have hcons := hl.conserve 0 _ hf
  rw [pendingDelta_of_windows hmap] at hcons
  have hprod : (0 : ℚ) ≤ previous * sl.weight :=
    mul_nonneg (by exact_mod_cast hprev) hweight
  have hle : ((w.limiters 0).hit cur).count cur ≤ lim := by
    have : (((w.limiters 0).hit cur).count cur : ℚ) ≤ lim := by linarith
    exact_mod_cast this
  rw [count_hit] at hle
  rw [← hlimit rfl]
  omega

theorem AdmissionInv.quiet (h : AdmissionInv k limit w) (hfresh : w'.Fresh k → w.Fresh k)
    (hredis : w'.redis = w.redis) (hs : SameBuffers (w.limiters 0) (w'.limiters 0))
    (hprocs : w'.procs = w.procs) (hlog : w'.log = w.log) : AdmissionInv k limit w' := by
  have happ : w'.applied 0 k = w.applied 0 k := by rw [World.applied, hlog]; rfl
  refine ⟨?_, ?_, ?_, ?_, ?_, ?_⟩
  · rw [hredis]; exact h.redis
  · rw [hs.windows, hs.states]; exact h.known
  · rw [hprocs]; exact fun p i pc hp => (h.calls p i pc hp).mono hfresh happ
  · intro hf
    rw [hs.windows, hs.states, World.acked, hlog]
    exact h.ahead (hfresh hf)
  · rw [World.admitted, World.hits, hlog]; exact h.counted
  · rw [World.admitted, hlog]; exact h.bounded

theorem AdmissionInv.reading (h : AdmissionInv k limit w) (now : ℕ) :
    AdmissionInv k limit (w.reading now) :=
  h.quiet (fun hf t ht => lt_of_le_of_lt (le_max_left _ _) (hf t ht)) rfl (.refl _) rfl rfl

theorem AdmissionInv.setLimiter (h : AdmissionInv k limit w)
    (hs : SameBuffers (w.limiters i) l') : AdmissionInv k limit (w.setLimiter i l') := by
  obtain rfl : i = 0 := Subsingleton.elim _ _
  refine h.quiet id rfl ?_ rfl rfl
  rw [← World.rewrite_nil, World.limiters_rewrite_self]
  exact hs

theorem AdmissionInv.setProc (h : AdmissionInv k limit w) (hpc : CallOk k limit w pc) :
    AdmissionInv k limit (w.setProc p i pc) := by
  refine { h with calls := ?_ }
  intro q i' qc hq
  rcases World.setProc_procs hq with ⟨_, rfl, rfl⟩ | ⟨_, hold⟩
  · exact hpc.mono id rfl
  · exact (h.calls q i' qc hold).mono id rfl

theorem AdmissionInv.goto (h : AdmissionInv k limit w) (hs : SameBuffers (w.limiters i) l')
    (hpc : CallOk k limit w pc) : AdmissionInv k limit ((w.setLimiter i l').setProc p i pc) :=
  (h.setLimiter hs).setProc (hpc.mono id rfl)

theorem AdmissionInv.spawn (h : AdmissionInv k limit w) (hpc : CallOk k limit w pc) :
    AdmissionInv k limit (w.spawn i pc) :=
  (h.setProc hpc).quiet id rfl (.refl _) rfl rfl

@[simp] theorem World.admitted_rewrite : (w.rewrite i l' evs).admitted 0 k =
    w.admitted 0 k + (evs.map (Event.admits 0 k)).sum := by
  simp [World.rewrite, World.admitted, World.setLimiter]

theorem AdmissionInv.advance (h : AdmissionInv k limit w) (hpc : CallOk k limit w pc')
    (hknown : ∀ k' j, l'.windows k' = some j → 0 ≤ (l'.states j).redisKnown)
    (hahead : w.Fresh k → ∀ j, l'.windows k = some j →
      w.acked 0 k + (evs.map (Event.acks 0 k)).sum ≤ (l'.states j).redisKnown)
    (happ : (evs.map (Event.applies 0 k)).sum = 0)
    (hcount : (evs.map (Event.admits 0 k)).sum ≤ (evs.map (Event.hits 0 k)).sum)
    (hbound : w.admitted 0 k + (evs.map (Event.admits 0 k)).sum ≤ max limit 0) :
    AdmissionInv k limit ((w.rewrite 0 l' evs).setProc p 0 pc') := by
  have hsame : ((w.rewrite 0 l' evs).setProc p 0 pc').applied 0 k = w.applied 0 k := by
    show (w.rewrite 0 l' evs).applied 0 k = _
    rw [World.applied_rewrite, happ, add_zero]
  refine ⟨h.redis, ?_, ?_, ?_, ?_, ?_⟩
  · rw [World.limiters_setProc, World.limiters_rewrite_self]; exact hknown
  · intro q i' qc hq
    rcases World.setProc_procs hq with ⟨_, rfl, rfl⟩ | ⟨_, hold⟩
    · exact hpc.mono id hsame
    · exact (h.calls q i' qc hold).mono id hsame
  · intro hf
    rw [World.limiters_setProc, World.limiters_rewrite_self]
    show ∀ j, _ → (w.rewrite 0 l' evs).acked 0 k ≤ _
    rw [World.acked_rewrite]
    exact hahead hf
  · show (w.rewrite 0 l' evs).admitted 0 k ≤ (w.rewrite 0 l' evs).hits 0 k
    rw [World.admitted_rewrite, World.hits_rewrite]
    exact add_le_add h.counted hcount
  · show (w.rewrite 0 l' evs).admitted 0 k ≤ max limit 0
    rw [World.admitted_rewrite]
    exact hbound

theorem CallOk.of_carries {t : Todo} (h : CallOk k limit w (.held t)) (hc : Carries l' t pc evs)
    (hcount : ∀ k' j, l'.windows k' = some j → 0 ≤ l'.count j) : CallOk k limit w pc where
  take := fun sl l hx => h.take sl l (hc.take _ hx)
  stores := fun _ _ hx => by rw [hc.stores] at hx; cases hx
  landed := fun _ _ hx => by rw [hc.landed] at hx; cases hx
  previous := fun v hv => by
    obtain ⟨k', j, hk, rfl⟩ := hc.previous v hv
    exact hcount k' j hk

theorem AdmissionInv.piece {t : Todo} {inp : Input} {next : Next} (h : AdmissionInv k limit w)
    (hl : LedgerInv redis w) (hredis : ∀ k', 0 ≤ redis.get k')
    (hp : w.procs p = some ⟨i, .held t⟩) (hnow : unix inp.now ≤ w.clock)
    (hstored : ∀ v, t.stores = some (k, v) → (w.limiters 0).pendingDelta k = 0 →
      v = w.redis.get k)
    (hfits : ∀ sl lim cur previous, t = .takeHit sl lim cur previous → sl.currentKey = k →
      (((w.limiters 0).hit cur).count cur : ℚ) + previous * sl.weight ≤ lim →
        w.hits 0 k + 1 ≤ limit)
    (hm : PieceMove i (w.limiters i) inp t l' next evs) :
    AdmissionInv k limit ((w.rewrite i (next.unlock l') evs).setProc p i next.pc) := by
  obtain rfl : i = 0 := Subsingleton.elim _ _
  have hsame : SameBuffers l' (next.unlock l') := Next.unlock_same
  have hcall := h.calls p 0 _ hp
  have hc := hm.carries
  have hs := hl.sound 0
  -- Counts are never negative, whatever the piece did.
  have hdelta : ∀ k' j, l'.windows k' = some j → 0 ≤ (l'.states j).localDelta := by
    intro k' j hk
    have hs' := (hl.piece hp hnow hm).sound 0
    rw [World.limiters_setProc, World.limiters_rewrite_self] at hs'
    rw [← hsame.windows] at hk
    have hst := hs'.states j (hs'.mapped k' j hk).2
    rw [hsame.states] at hst
    exact le_trans hst.flush_nonneg hst.flush_le
  have hfinish : (∀ k' j, l'.windows k' = some j → 0 ≤ (l'.states j).redisKnown) →
      (w.Fresh k → ∀ j, l'.windows k = some j →
        w.acked 0 k + (evs.map (Event.acks 0 k)).sum ≤ (l'.states j).redisKnown) →
      (evs.map (Event.applies 0 k)).sum = 0 →
      (evs.map (Event.admits 0 k)).sum ≤ (evs.map (Event.hits 0 k)).sum →
      w.admitted 0 k + (evs.map (Event.admits 0 k)).sum ≤ max limit 0 →
      AdmissionInv k limit ((w.rewrite 0 (next.unlock l') evs).setProc p 0 next.pc) := by
    intro hknown hahead
    refine h.advance (hcall.of_carries hc fun k' j hk =>
      add_nonneg (hknown k' j hk) (hdelta k' j hk)) ?_ ?_
    · rw [hsame.windows, hsame.states]; exact hknown
    · rw [hsame.windows, hsame.states]; exact hahead
  by_cases hland : t.landed = none
  · have hknown : ∀ k' j, l'.windows k' = some j → 0 ≤ (l'.states j).redisKnown := by
      intro k' j hk
      rcases hm.known hs hland hk with ⟨hold, heq⟩ | ⟨v, hv, _, heq⟩
      · rw [heq]; exact h.known k' j hold
      · rw [heq]; exact hcall.stores k' v hv
    have hahead : w.Fresh k → ∀ j, l'.windows k = some j →
        w.acked 0 k ≤ (l'.states j).redisKnown := by
      intro hf j hk
      rcases hm.known hs hland hk with ⟨hold, heq⟩ | ⟨v, hv, hzero, heq⟩
      · rw [heq]; exact h.ahead hf j hold
      · rw [heq, hstored v hv hzero]
        exact le_trans hl.acked_le_applied (hl.applied_le_get hredis hf)
    cases ht : t.counts with
    | none =>
      obtain rfl := hc.quiet ht hland
      refine hfinish hknown ?_ rfl (le_refl _) ?_
      · simpa using hahead
      · simpa using h.bounded
    | some k' =>
      cases t with
      | takeHit sl lim cur previous =>
        cases hm with | takeHit hans =>
        subst hans
        refine hfinish hknown ?_ rfl ?_ ?_
        · simpa [Event.acks] using hahead
        · rw [List.map_singleton, List.map_singleton, List.sum_singleton, List.sum_singleton]
          exact Event.admits_le_hits
        · simp only [List.map_cons, List.map_nil, List.sum_cons, List.sum_nil, add_zero,
            Event.admits]
          split_ifs with hadmit
          · have hroom := hfits sl lim cur previous rfl hadmit.1.2 (of_decide_eq_true hadmit.2)
            have := h.counted
            exact le_trans (by omega) (le_max_left limit 0)
          · rw [add_zero]; exact h.bounded
      | _ => cases ht
  · cases t with
    | evalApply f job rest reply =>
      cases reply with
      | error e => exact absurd rfl hland
      | ok v =>
        obtain ⟨j, hmap, hdel, hac⟩ := hl.owner hp
        obtain ⟨hv, happ⟩ := hcall.landed _ _ rfl
        cases hm
        have hac : w.applied 0 job.key = w.acked 0 job.key + job.delta := by
          simpa [Todo.landed] using hac
        refine hfinish ?_ ?_ rfl (le_refl _) ?_
        · intro k' j' hk'
          obtain ⟨hold, ⟨_, heq⟩ | ⟨_, heq⟩⟩ := ack_known hs hmap hk'
          · rw [heq]; exact hv
          · rw [heq]; exact h.known k' j' hold
        · intro hf j' hk'
          obtain ⟨hold, ⟨hk, heq⟩ | ⟨hk, heq⟩⟩ := ack_known hs hmap hk'
          · have hle := happ hk hf
            rw [heq]
            subst hk
            simpa [Event.acks, ← hac] using hle
          · rw [heq]
            simpa [Event.acks, hk] using h.ahead hf j' hold
        · simpa [Event.admits] using h.bounded
    | _ => exact absurd rfl hland

theorem CallOk.got {g : GetFor} {reply : Reply} (h : CallOk k limit w (.getting g))
    (hreply : ∀ v, reply = .ok v → 0 ≤ v) : CallOk k limit w (.lock (g.todo reply)) := by
  refine ⟨?_, ?_, ?_, ?_⟩
  · intro sl l ht
    cases g <;> exact h.take sl l ht
  · intro k' v hs
    cases reply with
    | error e => cases g <;> cases hs
    | ok v => cases g <;> cases hs <;> exact hreply _ rfl
  · intro k' v hs
    cases g <;> cases hs
  · intro v hs
    cases g <;> cases hs

theorem AdmissionInv.evaled {f : Flush} {job : Job} {rest : List Job} {r : Store}
    (h : AdmissionInv k limit w) (hl : LedgerInv redis w) (hredis : ∀ k', 0 ≤ redis.get k')
    (hp : w.procs p = some ⟨i, .evaling f job rest⟩)
    (hr : r = w.redis.flush job.key job.delta job.expireAt) :
    AdmissionInv k limit (({ w with
      redis := r
      log := w.log ++ [Event.applied i job.key job.delta] } : World 1).setProc p i
        (.lock (.evalApply f job rest (.ok (r.get job.key))))) := by
  obtain rfl : i = 0 := Subsingleton.elim _ _
  have hl' := hl.evalApplied (v := r.get job.key) hp
  rw [← hr] at hl'
  have hpos := ((hl.procs p 0 _ hp).jobs job List.mem_cons_self).1
  have hredis' : ∀ k', 0 ≤ r.get k' := by
    intro k'
    have hold := h.redis k'
    rw [hr]
    by_cases hk : k' = job.key
    · subst hk
      rw [Store.get_flush_self]
      omega
    · rw [Store.get_flush_of_ne hk]
      exact hold
  have hlanded : ∀ q qc v, q ≠ p → w.procs q = some ⟨0, qc⟩ →
      qc.landed = some (k, v) → job.key ≠ k := by
    rintro q qc v hq hproc hland rfl
    obtain ⟨job', hjob', hkey'⟩ := Pc.inFlight_mem (Pc.landed_inFlight hland)
    refine hq (hl.owned.unique q p (0, job.key) ?_ ?_)
    · rw [hproc]; exact ⟨rfl, List.mem_map.mpr ⟨job', hjob', hkey'⟩⟩
    · rw [hp]; exact ⟨rfl, List.mem_map.mpr ⟨job, List.mem_cons_self, rfl⟩⟩
  refine ⟨hredis', h.known, ?_, ?_, ?_, ?_⟩
  · intro q i' qc hq
    obtain rfl : i' = 0 := Subsingleton.elim _ _
    rcases World.setProc_procs hq with ⟨_, _, rfl⟩ | ⟨hne, hold⟩
    · refine ⟨fun _ _ ht => (nomatch ht), fun _ _ ht => (nomatch ht), ?_,
        fun _ ht => (nomatch ht)⟩
      intro k' v hv
      cases hv
      refine ⟨hredis' _, ?_⟩
      rintro rfl hf
      exact hl'.applied_le_get hredis hf
    · have hcall := h.calls q 0 qc hold
      refine ⟨hcall.take, hcall.stores, ?_, hcall.previous⟩
      intro k' v hv
      refine ⟨(hcall.landed k' v hv).1, ?_⟩
      rintro rfl hf
      have hle := (hcall.landed k' v hv).2 rfl hf
      simpa [World.applied, World.setProc, Event.applies, hlanded q qc v hne hold hv] using hle
  · intro hf j hk
    simpa [World.acked, World.setProc, Event.acks] using h.ahead hf j hk
  · simpa [World.admitted, World.hits, World.setProc, Event.admits, Event.hits] using h.counted
  · simpa [World.admitted, World.setProc, Event.admits] using h.bounded

theorem AdmissionInv.expire {k' : WindowKey} {now : ℕ} (h : AdmissionInv k limit w) :
    AdmissionInv k limit { w.reading now with redis := w.redis.lose k' } := by
  have hread := h.reading now
  refine { hread with redis := ?_, calls := ?_ }
  · intro k''
    show 0 ≤ (w.redis.lose k').get k''
    by_cases hk : k'' = k'
    · subst hk; simp [Store.get, Store.lose]
    · rw [Store.get_lose_of_ne hk]; exact h.redis k''
  · exact fun q i' qc hq => (hread.calls q i' qc hq).mono id rfl

end Admission

/-! ## Runs in which a GET's reply is still current -/

/-- What the run has to avoid: storing a reply that Redis has moved past,
and deciding on a window some clock has outlived. -/
def Undisturbed (k : WindowKey) (w : World 1) : Action 1 → Prop
  | .run p _ => ∀ q ∈ w.procs p, ∀ t ∈ q.pc.due,
      (∀ x ∈ t.stores, x.1 = k → (w.limiters 0).pendingDelta k = 0 → x.2 = w.redis.get k) ∧
        (∀ k' ∈ t.counts, k' = k → w.Fresh k)
  | _ => True

instance (k : WindowKey) (w : World 1) : (a : Action 1) → Decidable (Undisturbed k w a)
  | .run p _ => inferInstanceAs (Decidable (∀ q ∈ w.procs p, ∀ t ∈ q.pc.due,
      (∀ x ∈ t.stores, x.1 = k → (w.limiters 0).pendingDelta k = 0 → x.2 = w.redis.get k) ∧
        (∀ k' ∈ t.counts, k' = k → w.Fresh k)))
  | .take .. | .peek .. | .sleep _ | .wake _ | .close _ | .fire .. | .get .. | .eval ..
  | .expire .. => isTrue trivial

/-- Every call on the opaque key uses one limit and one window length. -/
def OneQuota (key : String) (limit window : ℤ) : Action 1 → Prop
  | .take _ key' limit' window' _ | .peek _ key' limit' window' _ =>
    key' = key → limit' = limit ∧ window' = window
  | _ => True

instance (key : String) (limit window : ℤ) :
    (a : Action 1) → Decidable (OneQuota key limit window a)
  | .take _ key' limit' window' _ | .peek _ key' limit' window' _ =>
    inferInstanceAs (Decidable (key' = key → limit' = limit ∧ window' = window))
  | .sleep _ | .wake _ | .close _ | .fire .. | .run .. | .get .. | .eval ..
  | .expire .. => isTrue trivial

section Runs

variable {k : WindowKey} {limit window : ℤ} {w w' : World 1} {redis : Store} {p : ℕ}

theorem SlidingSpec.weight_nonneg {key : String} {windowSec : ℤ} {now : ℕ} {sl : SlidingWindow}
    (h : SlidingSpec key windowSec now sl) (hpos : 0 < windowSec) : 0 ≤ sl.weight := by
  rw [h.weight_eq, sub_nonneg]
  have hw : (0 : ℚ) < windowSec := by exact_mod_cast hpos
  have hlt : unix now - sl.currentKey.windowStart ≤ windowSec := by
    have := h.lt_end
    omega
  exact (div_le_one hw).mpr (by exact_mod_cast hlt)

theorem AdmissionInv.begin (h : AdmissionInv k limit w) {i : Fin 1} {key : String} {now : ℕ}
    {sl : SlidingWindow} {t : Todo} (lim : ℤ) (hsl : slidingAt key window now = .ok sl)
    (htake : ∀ x, t.take = some x → x = (sl, lim)) (hlim : key = k.opaqueKey → lim = limit)
    (hs : t.stores = none) (hld : t.landed = none) (hpr : t.previous = none) :
    AdmissionInv k limit (((w.reading now).ask sl).spawn i (.lock t)) := by
  obtain ⟨hpos, hspec⟩ := slidingAt_ok hsl
  have hask : AdmissionInv k limit ((w.reading now).ask sl) :=
    (h.reading now).quiet (fun hf t ht => hf t (mem_ask ht)) rfl (.refl _) rfl rfl
  refine hask.spawn ⟨?_, ?_, ?_, ?_⟩
  · intro sl' l hx
    obtain ⟨rfl, rfl⟩ := Prod.mk.injEq .. ▸ htake _ hx
    refine ⟨hspec.weight_nonneg hpos, ?_⟩
    rintro rfl
    exact hlim hspec.current_opaque.symm
  · exact fun _ _ hx => absurd (hs.symm.trans hx) nofun
  · exact fun _ _ hx => absurd (hld.symm.trans hx) nofun
  · exact fun _ hx => absurd (hpr.symm.trans hx) nofun

theorem AdmissionInv.step {a : Action 1} (h : AdmissionInv k limit w) (hl : LedgerInv redis w)
    (hredis : ∀ k', 0 ≤ redis.get k') (hcalm : Undisturbed k w a)
    (hquota : OneQuota k.opaqueKey limit window a) (hstep : w.step a = some w') :
    AdmissionInv k limit w' := by
  have hnothing : ∀ {w₁ : World 1} {pc : Pc}, pc.take = none → pc.stores = none →
      pc.landed = none → pc.previous = none → CallOk k limit w₁ pc := CallOk.nothing
  cases Moved.of_step hstep with
  | takeRefused | peekRefused => exact h.reading _
  | @took _ _ lim _ _ _ hsl =>
    exact h.begin lim hsl (fun _ hx => (Option.some.inj hx).symm) (fun hk => (hquota hk).1)
      rfl rfl rfl
  | peeked hsl => exact h.begin limit hsl (fun _ hx => (nomatch hx)) (fun _ => rfl) rfl rfl rfl
  | slept | woken | closing => exact h.spawn (hnothing rfl rfl rfl rfl)
  | fired =>
    exact AdmissionInv.spawn (h.setLimiter ⟨rfl, rfl, rfl⟩) (hnothing rfl rfl rfl rfl)
  | acquired hp =>
    have hcall := h.calls _ _ _ hp
    exact h.goto ⟨rfl, rfl, rfl⟩
      ⟨hcall.take, hcall.stores, hcall.landed, hcall.previous⟩
  | @piece p inp i t _ _ _ hp hm =>
    obtain ⟨hstored, hfresh⟩ := hcalm _ hp t rfl
    refine (h.reading inp.now).piece (hl.reading inp.now) hredis hp (le_max_right _ _) ?_ ?_ hm
    · exact fun v hv hzero => hstored _ hv rfl hzero
    · rintro sl lim cur previous rfl rfl hallow
      obtain rfl : i = 0 := Subsingleton.elim _ _
      exact h.hit_fits hl hp rfl (hfresh _ rfl rfl) hallow
  | tickDone | stopInTime | stopDone =>
    exact h.goto ⟨rfl, rfl, rfl⟩ (hnothing rfl rfl rfl rfl)
  | stopLate | stopWaited | evalError => exact h.setProc (hnothing rfl rfl rfl rfl)
  | gotError hp => exact h.setProc ((h.calls _ _ _ hp).got fun _ hv => by cases hv)
  | got hp => exact h.setProc ((h.calls _ _ _ hp).got fun _ hv => by cases hv; exact h.redis _)
  | evaled hp hr => exact h.evaled hl hredis hp hr
  | expired => exact h.expire

end Runs

/-- One buffered limiter over counts that start non-negative, one limit for
the key: in every run that stores only current replies and whose Takes of
the window decide while it lasts, at most `max limit 0` Takes of the window
are allowed. -/
theorem buffered_admission (redis : Store) (hredis : ∀ k', 0 ≤ redis.get k')
    (limiter : Limiter) (hnew : ∃ rate, 0 < rate ∧ Limiter.new rate = some limiter)
    (k : WindowKey) (limit window : ℤ) (acts : List (Action 1)) (w : World 1)
    (hrun : run World.step (World.init redis fun _ => limiter) acts = some w)
    (hquota : ∀ a ∈ acts, OneQuota k.opaqueKey limit window a)
    (hcalm : Along World.step (Undisturbed k) (World.init redis fun _ => limiter) acts) :
    w.admitted 0 k ≤ max limit 0 := by
  have hempty : ∀ k' j, limiter.windows k' ≠ some j := by
    obtain ⟨rate, _, hrate⟩ := hnew
    rw [(Limiter.new_empty hrate).1]
    exact fun _ _ => nofun
  have hinit : AdmissionInv k limit (World.init redis fun _ => limiter) :=
    ⟨hredis, fun k' j hk => absurd hk (hempty k' j), fun _ _ _ hp => (nomatch hp),
      fun _ j hk => absurd hk (hempty k j), le_refl _, le_max_right _ _⟩
  have hstep : ∀ s a s', LedgerInv redis s ∧ AdmissionInv k limit s →
      Undisturbed k s a ∧ OneQuota k.opaqueKey limit window a → World.step s a = some s' →
      LedgerInv redis s' ∧ AdmissionInv k limit s' :=
    fun s a s' hi hP hs => ⟨hi.1.step hs, hi.2.step hi.1 hredis hP.1 hP.2 hs⟩
  have hboth := run_inv_along hstep (hcalm.and_forall hquota)
    ⟨ledgerInv_init fun _ => hnew, hinit⟩ hrun
  exact hboth.2.bounded

/-- A Take, a flush and a second Take, one after the other. -/
def oneByOne : List (Action 1) := takeAlone 0 0 ++ flushAlone 0 0 1 ++ takeAlone 0 2

theorem buffered_admission_oneByOne :
    ∃ w, run World.step (World.init Store.empty fun _ => everySecond) oneByOne = some w ∧
      w.hits 0 ⟨"k", 0⟩ = 2 ∧ w.admitted 0 ⟨"k", 0⟩ ≤ max 1 0 :=
  ⟨_, rfl, by decide +kernel, buffered_admission Store.empty (fun _ => le_refl _) everySecond
    ⟨1000000000, by decide, (Option.some_get _).symm⟩ ⟨"k", 0⟩ 1 1000000000 oneByOne _ rfl
    (by decide +kernel) (by decide +kernel)⟩

/-- The first Take's GET has answered zero when the second Take counts its
hit and a tick flushes it; then the first Take stores its zero. -/
def staleGet : List (Action 1) :=
  [Action.take 0 "k" 1 1000000000 0] ++ pieces 0 2 ++ [Action.get 0 none] ++ takeAlone 0 1 ++
    flushAlone 0 0 2 ++ pieces 0 3 ++ [Action.get 0 none] ++ pieces 0 4

/-- Every Redis command of the run succeeds. -/
def Succeeds : Action 1 → Prop
  | .get _ err | .eval _ err => err = none
  | _ => True

instance : (a : Action 1) → Decidable (Succeeds a)
  | .get _ err | .eval _ err => inferInstanceAs (Decidable (err = none))
  | .take .. | .peek .. | .sleep _ | .wake _ | .close _ | .fire .. | .run ..
  | .expire .. => isTrue trivial

/-- Limit one, every command succeeds, no time passes, and two Takes of the
window are allowed. -/
theorem two_admitted_on_stale_get :
    ∃ w, run World.step (World.init Store.empty fun _ => everySecond) staleGet = some w ∧
      (∀ a ∈ staleGet, Succeeds a ∧ OneQuota "k" 1 1000000000 a) ∧ w.Fresh ⟨"k", 0⟩ ∧
      w.admitted 0 ⟨"k", 0⟩ = 2 ∧ ¬ w.admitted 0 ⟨"k", 0⟩ ≤ max 1 0 :=
  ⟨_, rfl, by decide +kernel, by decide +kernel, by decide +kernel, by decide +kernel⟩

end MiddlewareUtils.WindowCounter
