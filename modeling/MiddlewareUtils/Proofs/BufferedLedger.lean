import MiddlewareUtils.Proofs.BufferedInv

/-!
# No buffered hit is lost or counted twice

The invariant of `BufferedInv`, taken through every piece of every call.
Most pieces move no snapshot (`Keeps`): they seed, raise or evict buffers,
count a hit, or only talk about errors and timers. Two kinds do: the first
loop of a flush takes snapshots, and the piece after an EVAL settles one.
Outside the lock Redis applies an EVAL or drops an expired key.

`buffered_conservation` reads the result off for a window key no clock
reading has outlived: hits are acknowledged deltas plus `localDelta`, and
once nothing is in flight Redis plus the pending deltas is what Redis had
plus all hits.
-/

namespace MiddlewareUtils.WindowCounter

open Lib Function

/-! ## Pieces that take or settle no snapshot -/

structure Keeps {n : ℕ} (w : World n) (i : Fin n) (pc : Pc) (l' : Limiter) (pc' : Pc)
    (evs : List (Event n)) : Prop where
  reshapes : Reshapes w (w.limiters i) l'
  flush : ∀ k, l'.flushOf k = (w.limiters i).flushOf k ∨
    (((w.limiters i).flushOf k).getD 0 = 0 ∧ (l'.flushOf k).getD 0 = 0)
  ok : ProcOk (w.rewrite i l' evs) i pc'
  jobs : pc'.jobs = pc.jobs
  landed : pc'.landed = pc.landed
  hits : ∀ e ∈ evs, ∃ k allowed, e = Event.hit i k allowed
  pend : ∀ k, w.Fresh k →
    (evs.map (Event.hits i k)).sum + (w.limiters i).pendingDelta k = l'.pendingDelta k

section Keeping

variable {n : ℕ} {w : World n} {i : Fin n} {pc pc' : Pc} {redis : Store} {p : ℕ}
  {l' l'' : Limiter} {evs : List (Event n)}

theorem ProcOk.idle (hw : pc.window = none) (hc : pc.cur = none) (hf : pc.flush = none)
    (hj : pc.jobs = []) : ProcOk w i pc where
  window := fun sl h => by rw [hw] at h; cases h
  cur := fun k j h => by rw [hc] at h; cases h
  time := fun f h => by rw [hf] at h; cases h
  jobs := fun job h => by rw [hj] at h; cases h
  nodup := by rw [hj]; exact List.nodup_nil

theorem Keeps.of_quiet (hq : Quietly w (w.limiters i) l') (ok : ProcOk (w.rewrite i l' []) i pc')
    (jobs : pc'.jobs = pc.jobs) (landed : pc'.landed = pc.landed) :
    Keeps w i pc l' pc' [] where
  reshapes := hq.toReshapes
  flush := hq.flush
  ok := ok
  jobs := jobs
  landed := landed
  hits := fun e he => by cases he
  pend := fun k hk => by
    have := hq.pend k hk
    rw [List.map_nil, List.sum_nil, zero_add, this]

theorem Keeps.same (h : Keeps w i pc l' pc' evs) (hs : SameBuffers l' l'') :
    Keeps w i pc l'' pc' evs := by
  refine { h with reshapes := h.reshapes.same hs, flush := ?_, ok := ?_, pend := ?_ }
  · intro k; rw [hs.flushOf]; exact h.flush k
  · refine h.ok.mono (.of_same (le_refl _) (fun _ _ ht => ht) ?_)
    intro i'
    by_cases hi : i' = i
    · subst hi
      rw [World.limiters_rewrite_self, World.limiters_rewrite_self]
      exact hs
    · rw [World.limiters_rewrite_of_ne hi, World.limiters_rewrite_of_ne hi]
      exact .refl _
  · intro k hk; rw [hs.pendingDelta]; exact h.pend k hk

theorem LedgerInv.keeps (h : LedgerInv redis w) (hp : w.procs p = some ⟨i, pc⟩)
    (hk : Keeps w i pc l' pc' evs) :
    LedgerInv redis ((w.rewrite i l' evs).setProc p i pc') := by
  have hack : ∀ i' k, (evs.map (Event.acks i' k)).sum = 0 := fun i' k =>
    Event.sum_of_ne fun e he => by obtain ⟨_, _, rfl⟩ := hk.hits e he; rfl
  have happ : ∀ i' k, (evs.map (Event.applies i' k)).sum = 0 := fun i' k =>
    Event.sum_of_ne fun e he => by obtain ⟨_, _, rfl⟩ := hk.hits e he; rfl
  have hflush : ∀ r : Fin n × WindowKey,
      ((w.rewrite i l' evs).account r).flush = (w.account r).flush ∨
        ((w.account r).flush.getD 0 = 0 ∧
          ((w.rewrite i l' evs).account r).flush.getD 0 = 0) := by
    rintro ⟨i', k⟩
    by_cases hi : i' = i
    · subst hi
      simp only [World.account, World.limiters_rewrite_self]
      exact hk.flush k
    · left
      show ((w.rewrite i l' evs).limiters i').flushOf k = _
      rw [World.limiters_rewrite_of_ne hi]
      rfl
  refine h.advance hp hk.reshapes hk.ok ?_ ?_ happ ?_
  · -- No owner can tell: a snapshot is positive, so its buffer was not touched.
    refine Owned.goto (h.owned.frame ?_ ?_) ?_ ?_
    · intro q r hq hok
      cases hproc : w.procs q with
      | none => rw [hproc] at hq; exact hq.elim
      | some qp =>
        rw [hproc] at hok
        intro job hjob hkey
        obtain ⟨hfl, hac⟩ := hok job hjob hkey
        have hpos := ((h.procs q qp.limiter qp.pc hproc).jobs job hjob).1
        refine ⟨?_, ?_⟩
        · rcases hflush r with heq | ⟨hzero, _⟩
          · exact heq.trans hfl
          · rw [hfl, Option.getD_some] at hzero
            omega
        · show (w.rewrite i l' evs).applied r.1 r.2 = (w.rewrite i l' evs).acked r.1 r.2 + _
          rw [World.applied_rewrite, World.acked_rewrite, hack, happ, add_zero, add_zero]
          exact hac
    · rintro r ⟨hzero, hac⟩
      refine ⟨?_, ?_⟩
      · intro d hd
        rcases hflush r with heq | ⟨_, hz⟩
        · exact hzero d (heq.symm.trans hd)
        · rw [hd, Option.getD_some] at hz
          exact hz
      · show (w.rewrite i l' evs).applied r.1 r.2 = (w.rewrite i l' evs).acked r.1 r.2
        rw [World.applied_rewrite, World.acked_rewrite, hack, happ, add_zero, add_zero]
        exact hac
    · intro r
      rw [hp]
      simp only [Flushes, hk.jobs]
    · intro r _ hok
      rw [hp] at hok
      simp only [FlushOk, hk.jobs, hk.landed] at hok ⊢
      exact hok
  · intro e he
    obtain ⟨_, _, rfl⟩ := hk.hits e he
    rfl
  · intro k hf
    rw [hack, zero_add]
    exact hk.pend k hf

end Keeping

section Pieces

variable {n : ℕ} {w : World n} {i : Fin n} {redis : Store} {p : ℕ} {l' : Limiter}
  {inp : Input} {next : Next} {evs : List (Event n)} {t : Todo}

theorem CurOk.of_windows {k : WindowKey} {j : Ptr} (hs : Sound w l')
    (hk : l'.windows k = some j) (hd : (l'.states j).expireAt ≠ 0) :
    CurOk (w.rewrite i l' evs) i k j := by
  obtain ⟨hkey, hlt⟩ := hs.mapped k j hk
  refine ⟨?_, ?_, ?_, fun _ => ?_⟩ <;> rw [World.limiters_rewrite_self]
  · exact hlt
  · exact hkey
  · exact hd
  · exact hk

theorem CurOk.procOk {sl : SlidingWindow} {limit : ℤ} {j : Ptr} (hc : CurOk w i sl.currentKey j) :
    ProcOk w i (.held (.takePrev sl limit j)) where
  window := fun sl h => by cases h
  cur := fun k j h => by cases h; exact hc
  time := fun f h => by cases h
  jobs := fun job h => by cases h
  nodup := List.nodup_nil

theorem Keeps.idle {pc : Pc} (h : LedgerInv redis w) (hs : SameBuffers (w.limiters i) l')
    (hj : t.jobs = []) (hl : t.landed = none) (hw : pc.window = none) (hc : pc.cur = none)
    (hf : pc.flush = none) (hjobs : pc.jobs = []) (hland : pc.landed = none) :
    Keeps w i (.held t) l' pc [] :=
  Keeps.of_quiet (Quietly.of_same (h.sound i) hs) (ProcOk.idle hw hc hf hjobs)
    (hjobs.trans hj.symm) (hland.trans hl.symm)

theorem Keeps.onward {pc : Pc} (h : LedgerInv redis w) (hp : w.procs p = some ⟨i, .held t⟩)
    (hq : Quietly w (w.limiters i) l') (hw : ∀ sl, pc.window = some sl → t.window = some sl)
    (hc : ∀ x, pc.cur = some x → t.cur = some x) (hf : pc.flush = none)
    (hj : t.jobs = []) (hl : t.landed = none) (hjobs : pc.jobs = []) (hland : pc.landed = none) :
    Keeps w i (.held t) l' pc [] := by
  have hold := (h.procs p i _ hp).mono (hq.toReshapes.grows [])
  refine Keeps.of_quiet hq ?_ (hjobs.trans hj.symm) (hland.trans hl.symm)
  exact
    { window := fun sl hsl => hold.window sl (hw sl hsl)
      cur := fun k j hkj => hold.cur k j (hc _ hkj)
      time := fun f h => by rw [hf] at h; cases h
      jobs := fun job h => by rw [hjobs] at h; cases h
      nodup := by rw [hjobs]; exact List.nodup_nil }

theorem sameBuffers_contacted {l : Limiter} {now : ℕ} : SameBuffers l (l.contacted now) :=
  ⟨rfl, rfl, rfl⟩

theorem sameBuffers_storeErr {l : Limiter} {err : Option RedisError} {now : ℕ} :
    SameBuffers l (l.storeErr err now) := by
  cases err <;> exact ⟨rfl, rfl, rfl⟩

theorem sameBuffers_startFlush {l : Limiter} : SameBuffers l l.startFlush := by
  unfold Limiter.startFlush
  split <;> exact ⟨rfl, rfl, rfl⟩

theorem Next.unlock_same {l : Limiter} : SameBuffers l (next.unlock l) := by
  cases next <;> exact ⟨rfl, rfl, rfl⟩

theorem quietly_seed (h : LedgerInv redis w) {k : WindowKey} {known e : ℤ}
    (he : e = 0 ∨ (0 < e ∧ e ∈ w.asked k)) :
    Quietly w (w.limiters i) (((w.limiters i).contacted inp.now).applyGet k known e).1 := by
  have hq : Quietly w (w.limiters i) ((w.limiters i).contacted inp.now) :=
    Quietly.of_same (h.sound i) sameBuffers_contacted
  exact hq.trans (h.sound i) (Quietly.applyGet hq.toSound he)

theorem quietly_raise (h : LedgerInv redis w) {k : WindowKey} {j : Ptr} {e : ℤ}
    (hk : (w.limiters i).windows k = some j) (he : 0 < e ∧ e ∈ w.asked k) :
    Quietly w (w.limiters i) ((w.limiters i).raise j e) := by
  obtain ⟨hkey, hlt⟩ := h.mapped i k j hk
  exact Quietly.raise (h.sound i) hlt (Or.inr (hkey.symm ▸ he))

theorem keeps_takeHit {sl : SlidingWindow} {limit previous : ℤ} {j : Ptr} {pc : Pc}
    {allowed : Bool} (h : LedgerInv redis w)
    (hp : w.procs p = some ⟨i, .held (.takeHit sl limit j previous)⟩)
    (hok : ProcOk (w.rewrite i ((w.limiters i).hit j) [.hit i sl.currentKey allowed]) i pc)
    (hjobs : pc.jobs = []) (hland : pc.landed = none) :
    Keeps w i (.held (.takeHit sl limit j previous)) ((w.limiters i).hit j) pc
      [.hit i sl.currentKey allowed] := by
  have hc := (h.procs p i _ hp).cur _ _ rfl
  have hs := h.sound i
  have hst := hs.states j hc.lt
  refine ⟨?_, ?_, hok, hjobs, hland, ?_, ?_⟩
  · refine Reshapes.setState hs rfl ?_ id
    have hle := hst.flush_le
    exact ⟨hst.expire_nonneg, hst.flush_nonneg, by dsimp only; omega, fun _ => hc.dated,
      hst.asked⟩
  · exact fun k => Or.inl (flushOf_setState rfl)
  · intro e he
    rw [List.mem_singleton] at he
    exact ⟨_, _, he⟩
  · -- While the window lasts the hit lands in the buffer the map holds.
    intro k hf
    by_cases hk : sl.currentKey = k
    · subst hk
      have hmap := hc.mapped hf
      rw [pendingDelta_of_windows hmap, Limiter.hit,
        pendingDelta_of_windows (l := (w.limiters i).setState j _) hmap, states_setState_self]
      simp [Event.hits]
      ring
    · have hne : (w.limiters i).windows k ≠ some j := fun hk' =>
        hk (hc.key.symm.trans (hs.mapped k j hk').1)
      rw [Limiter.hit, pendingDelta_setState_of_ne hne]
      simp [Event.hits, hk]

end Pieces

/-! ## Taking and settling a snapshot -/

section Snapshots

variable {n : ℕ} {w : World n} {i : Fin n} {redis : Store} {p : ℕ} {l l' : Limiter}
  {inp : Input} {next : Next} {evs : List (Event n)} {f : Flush} {job : Job} {rest : List Job}

theorem mem_pending {j : Ptr} : j ∈ l.pending ↔
    (j < l.nextPtr ∧ l.windows (l.states j).key = some j) ∧
      0 < (l.states j).localDelta ∧ (l.states j).flushDelta = 0 := by
  simp only [Limiter.pending, Limiter.mapped, List.mem_filter, List.mem_range,
    decide_eq_true_eq]

theorem LedgerInv.flush_pos (h : LedgerInv redis w) {q : ℕ} {r : Fin n × WindowKey}
    (hq : Flushes (w.procs q) r) : ∃ d, 0 < d ∧ (w.limiters r.1).flushOf r.2 = some d := by
  cases hproc : w.procs q with
  | none => rw [hproc] at hq; exact hq.elim
  | some qp =>
    have hok := h.owned.held q r hq
    rw [hproc] at hq hok
    obtain ⟨job, hjob, hkey⟩ := List.mem_map.mp hq.2
    exact ⟨job.delta, ((h.procs q qp.limiter qp.pc hproc).jobs job hjob).1,
      (hok job hjob hkey).1⟩

theorem states_snapshot_of_mem {j : Ptr} (h : j ∈ l.pending) :
    l.snapshot.states j = { l.states j with flushDelta := (l.states j).localDelta } :=
  if_pos h

theorem states_snapshot_of_not_mem {j : Ptr} (h : j ∉ l.pending) :
    l.snapshot.states j = l.states j :=
  if_neg h

theorem Reshapes.snapshot (hs : Sound w l) : Reshapes w l l.snapshot := by
  have hkey : ∀ j, (l.snapshot.states j).key = (l.states j).key ∧
      (l.snapshot.states j).expireAt = (l.states j).expireAt := by
    intro j
    by_cases hj : j ∈ l.pending
    · rw [states_snapshot_of_mem hj]; exact ⟨rfl, rfl⟩
    · rw [states_snapshot_of_not_mem hj]; exact ⟨rfl, rfl⟩
  refine ⟨⟨?_, ?_⟩, ?_, fun _ _ _ hk _ => hk⟩
  · intro k j hk
    rw [(hkey j).1]
    exact hs.mapped k j hk
  · intro j hlt
    have hst := hs.states j hlt
    by_cases hj : j ∈ l.pending
    · rw [states_snapshot_of_mem hj]
      exact ⟨hst.expire_nonneg, le_trans hst.flush_nonneg hst.flush_le, le_refl _, hst.dated,
        hst.asked⟩
    · rw [states_snapshot_of_not_mem hj]; exact hst
  · intro j hlt
    rw [(hkey j).1, (hkey j).2]
    exact ⟨hlt, rfl, id⟩

theorem pendingDelta_snapshot {k : WindowKey} : l.snapshot.pendingDelta k = l.pendingDelta k := by
  unfold Limiter.pendingDelta
  rw [show l.snapshot.windows = l.windows from rfl]
  cases l.windows k with
  | none => rfl
  | some j =>
    by_cases hj : j ∈ l.pending
    · dsimp only; rw [states_snapshot_of_mem hj]
    · dsimp only; rw [states_snapshot_of_not_mem hj]

theorem account_rewrite_of_ne {i' : Fin n} {k : WindowKey} (hi : i' ≠ i)
    (hmine : ∀ e ∈ evs, e.limiter = i) :
    (w.rewrite i l' evs).account (i', k) = w.account (i', k) := by
  have hack : (evs.map (Event.acks i' k)).sum = 0 := Event.sum_of_ne
    fun e he => Event.acks_of_ne fun hc => hi (hc.symm.trans (hmine e he))
  have happ : (evs.map (Event.applies i' k)).sum = 0 := Event.sum_of_ne
    fun e he => Event.applies_of_ne fun hc => hi (hc.symm.trans (hmine e he))
  simp only [World.account, World.limiters_rewrite_of_ne hi, World.applied_rewrite,
    World.acked_rewrite, hack, happ, add_zero]

theorem LedgerInv.flushStart (h : LedgerInv redis w) {caller : FlushCaller}
    (hp : w.procs p = some ⟨i, .held (.flushStart caller)⟩) (hnow : unix inp.now ≤ w.clock)
    (hperm : inp.order.isPerm (w.limiters i).pending = true) :
    LedgerInv redis ((w.rewrite i (w.limiters i).snapshot []).setProc p i
      (.held (.flushNext ⟨caller, unix inp.now, none⟩ (inp.order.map fun j =>
        ⟨((w.limiters i).states j).key, ((w.limiters i).states j).localDelta,
          ((w.limiters i).states j).expireAt⟩)))) := by
  have hs := h.sound i
  set l := w.limiters i with hl
  have hmem : ∀ j, j ∈ inp.order ↔ j ∈ l.pending := fun j =>
    (List.isPerm_iff.mp hperm).mem_iff
  have hflush : ∀ j ∈ l.pending, l.snapshot.flushOf (l.states j).key =
      some (l.states j).localDelta := by
    intro j hj
    have hk := (mem_pending.mp hj).1.2
    show (l.windows _).map _ = _
    rw [hk, Option.map_some, states_snapshot_of_mem hj]
  have howned : ∀ r : Fin n × WindowKey, r.1 = i → (∃ j ∈ l.pending, (l.states j).key = r.2) →
      ∀ q, ¬ Flushes (w.procs q) r := by
    rintro r hi ⟨j, hj, hkey⟩ q hq
    obtain ⟨d, hd, hfl⟩ := h.flush_pos hq
    have hk := (mem_pending.mp hj).1.2
    rw [Limiter.flushOf, hi, ← hl, ← hkey, hk, Option.map_some, (mem_pending.mp hj).2.2] at hfl
    injection hfl with hfl
    omega
  refine h.advance hp (Reshapes.snapshot hs) ⟨?_, ?_, ?_, ?_, ?_⟩ ?_ ?_ ?_ ?_
  · intro sl hsl; cases hsl
  · intro k j hkj; cases hkj
  · intro f hf
    cases hf
    exact hnow
  · intro job hjob
    obtain ⟨j, hj, rfl⟩ := List.mem_map.mp hjob
    obtain ⟨⟨hlt, _⟩, hpos, _⟩ := mem_pending.mp ((hmem j).mp hj)
    have hst := hs.states j hlt
    exact ⟨hpos, hst.asked (hst.dated (ne_of_gt hpos))⟩
  · show ((inp.order.map _).map Job.key).Nodup
    rw [List.map_map]
    refine List.Nodup.map_on ?_ ?_
    · intro x hx y hy hxy
      have hkx := (mem_pending.mp ((hmem x).mp hx)).1.2
      have hky := (mem_pending.mp ((hmem y).mp hy)).1.2
      have hxy' : (l.states x).key = (l.states y).key := hxy
      rw [hxy', hky] at hkx
      injection hkx with hkx
      exact hkx.symm
    · exact (List.isPerm_iff.mp hperm).nodup_iff.mpr
        ((List.nodup_range.filter _).filter _)
  · refine h.owned.move ?_ ?_ ?_ ?_
    · rintro ⟨i', k⟩ ⟨hi, _⟩ job hjob hkey
      obtain rfl : i = i' := hi
      obtain ⟨j, hj, rfl⟩ := List.mem_map.mp hjob
      have hkey' : (l.states j).key = k := hkey
      subst hkey'
      refine ⟨?_, ?_⟩
      · show ((w.rewrite i l.snapshot []).limiters i).flushOf _ = _
        rw [World.limiters_rewrite_self]
        exact hflush j ((hmem j).mp hj)
      · have hrest : w.applied i (l.states j).key = w.acked i (l.states j).key :=
          (h.owned.rests (i, (l.states j).key) (howned _ rfl ⟨j, (hmem j).mp hj, rfl⟩)).2
        show (w.rewrite i l.snapshot []).applied _ _ = (w.rewrite i l.snapshot []).acked _ _ + 0
        rw [World.applied_rewrite, World.acked_rewrite]
        simpa using hrest
    · rintro ⟨i', k⟩ ⟨hi, hk⟩
      obtain ⟨job, hjob, hkey⟩ := List.mem_map.mp hk
      obtain ⟨j, hj, rfl⟩ := List.mem_map.mp hjob
      exact .inr (howned _ hi.symm ⟨j, (hmem j).mp hj, hkey⟩)
    · intro r hr
      rw [hp] at hr
      cases hr.2
    · rintro ⟨i', k⟩ _ hnot
      by_cases hi : i' = i
      · subst hi
        have hkeep : l.snapshot.flushOf k = l.flushOf k := by
          show (l.windows k).map _ = (l.windows k).map _
          cases hk : l.windows k with
          | none => rfl
          | some j =>
            have hj : j ∉ l.pending := fun hj => hnot
              ⟨rfl, List.mem_map.mpr ⟨_, List.mem_map.mpr ⟨j, (hmem j).mpr hj, rfl⟩,
                (hs.mapped k j hk).1⟩⟩
            rw [Option.map_some, Option.map_some, states_snapshot_of_not_mem hj]
        simp only [World.account, World.limiters_rewrite_self, World.applied_rewrite,
          World.acked_rewrite, List.map_nil, List.sum_nil, add_zero]
        rw [← hl]
        exact congrArg (Account.mk · _ _) hkeep
      · exact account_rewrite_of_ne hi (by simp)
  · intro e he; cases he
  · intro i' k; rfl
  · intro k _
    rw [List.map_nil, List.map_nil, List.sum_nil, zero_add, zero_add]
    exact pendingDelta_snapshot.symm

theorem LedgerInv.owner {reply : Reply} (h : LedgerInv redis w)
    (hp : w.procs p = some ⟨i, .held (.evalApply f job rest reply)⟩) :
    ∃ j, (w.limiters i).windows job.key = some j ∧
      ((w.limiters i).states j).flushDelta = job.delta ∧
      w.applied i job.key = w.acked i job.key +
        if ((Todo.evalApply f job rest reply).landed.map Prod.fst) = some job.key
          then job.delta else 0 := by
  have hok := h.owned.held p (i, job.key)
    (by rw [hp]; exact ⟨rfl, List.mem_map.mpr ⟨job, List.mem_cons_self, rfl⟩⟩)
  rw [hp] at hok
  obtain ⟨hfl, hac⟩ := hok job List.mem_cons_self rfl
  obtain ⟨j, hj, hd⟩ := Option.map_eq_some_iff.mp
    (show ((w.limiters i).windows job.key).map _ = some job.delta from hfl)
  exact ⟨j, hj, hd, hac⟩

theorem LedgerInv.settle {reply : Reply} {f' : Flush} (h : LedgerInv redis w)
    (hp : w.procs p = some ⟨i, .held (.evalApply f job rest reply)⟩)
    (hclock : f'.nowUnix = f.nowUnix)
    (hr : Reshapes w (w.limiters i) l') (hmine : ∀ e ∈ evs, e.limiter = i)
    (happ : ∀ i' k, (evs.map (Event.applies i' k)).sum = 0)
    (hcons : ∀ k, w.Fresh k →
      (evs.map (Event.hits i k)).sum + (w.limiters i).pendingDelta k =
        (evs.map (Event.acks i k)).sum + l'.pendingDelta k)
    (hrests : FlushRests (i, job.key) ((w.rewrite i l' evs).account (i, job.key)))
    (hothers : ∀ k, k ≠ job.key →
      (w.rewrite i l' evs).account (i, k) = w.account (i, k)) :
    LedgerInv redis ((w.rewrite i l' evs).setProc p i (.held (.flushNext f' rest))) := by
  have hold := (h.procs p i _ hp).mono (hr.grows evs)
  have hnodup : job.key ∉ rest.map Job.key ∧ (rest.map Job.key).Nodup :=
    List.nodup_cons.mp hold.nodup
  refine h.advance hp hr ⟨?_, ?_, ?_, ?_, hnodup.2⟩ ?_ hmine happ hcons
  · intro sl hsl; cases hsl
  · intro k j hkj; cases hkj
  · intro f'' hf
    cases hf
    rw [hclock]
    exact hold.time f rfl
  · exact fun job' hjob => hold.jobs job' (List.mem_cons_of_mem _ hjob)
  · refine h.owned.move ?_ ?_ ?_ ?_
    · rintro ⟨i', k⟩ ⟨hi, hk⟩ job' hjob hkey
      obtain rfl : i = i' := hi
      have hne : k ≠ job.key := fun hc => hnodup.1 (hc ▸ hk)
      have hok := h.owned.held p (i, k)
        (by rw [hp]; exact ⟨rfl, List.mem_cons_of_mem _ hk⟩)
      rw [hp] at hok
      obtain ⟨hfl, hac⟩ := hok job' (List.mem_cons_of_mem _ hjob) hkey
      rw [hothers k hne]
      refine ⟨hfl, ?_⟩
      have hland : ¬ (Pc.held (.evalApply f job rest reply)).landed.map Prod.fst = some k := by
        cases reply with
        | error e => exact fun hc => by cases hc
        | ok v => exact fun hc => hne (Option.some.inj hc).symm
      rw [if_neg hland] at hac
      exact hac
    · rintro ⟨i', k⟩ ⟨hi, hk⟩
      left
      rw [hp]
      exact ⟨hi, List.mem_cons_of_mem _ hk⟩
    · rintro ⟨i', k⟩ hmy hnot
      rw [hp] at hmy
      obtain rfl : i = i' := hmy.1
      rcases List.mem_cons.mp hmy.2 with hk | hk
      · obtain rfl : k = job.key := hk
        exact hrests
      · exact absurd ⟨rfl, hk⟩ hnot
    · rintro ⟨i', k⟩ hnot _
      by_cases hi : i' = i
      · subst hi
        refine hothers k fun hk => hnot ?_
        rw [hp]
        exact ⟨rfl, List.mem_map.mpr ⟨job, List.mem_cons_self, hk.symm⟩⟩
      · exact account_rewrite_of_ne hi hmine

theorem flushOf_setState_self {j : Ptr} {st : WindowState} {k : WindowKey}
    (h : l.windows k = some j) : (l.setState j st).flushOf k = some st.flushDelta := by
  show (l.windows k).map _ = _
  rw [h, Option.map_some, states_setState_self]

theorem flushOf_setState_of_ne {j : Ptr} {st : WindowState} {k : WindowKey}
    (h : l.windows k ≠ some j) : (l.setState j st).flushOf k = l.flushOf k := by
  show (l.windows k).map _ = (l.windows k).map _
  cases hk : l.windows k with
  | none => rfl
  | some j' =>
    have hj : j' ≠ j := fun hc => h (hc ▸ hk)
    rw [Option.map_some, Option.map_some, states_setState_of_ne hj]

theorem LedgerInv.settleState {reply : Reply} {f' : Flush} {j : Ptr} {st : WindowState} {d : ℤ}
    (h : LedgerInv redis w) (hp : w.procs p = some ⟨i, .held (.evalApply f job rest reply)⟩)
    (hclock : f'.nowUnix = f.nowUnix) (hk : (w.limiters i).windows job.key = some j)
    (hsame : SameBuffers ((w.limiters i).setState j st) l')
    (hr : Reshapes w (w.limiters i) ((w.limiters i).setState j st)) (hzero : st.flushDelta = 0)
    (hlocal : ((w.limiters i).states j).localDelta = d + st.localDelta)
    (hac : w.applied i job.key = w.acked i job.key + d) (hmine : ∀ e ∈ evs, e.limiter = i)
    (happ : ∀ i' k, (evs.map (Event.applies i' k)).sum = 0)
    (hhits : ∀ k, (evs.map (Event.hits i k)).sum = 0)
    (hacks : ∀ k, (evs.map (Event.acks i k)).sum = if job.key = k then d else 0) :
    LedgerInv redis ((w.rewrite i l' evs).setProc p i (.held (.flushNext f' rest))) := by
  have hne : ∀ k, k ≠ job.key → (w.limiters i).windows k ≠ some j := fun k hc hk' =>
    hc ((h.mapped i k j hk').1.symm.trans (h.mapped i _ j hk).1)
  refine h.settle hp hclock (hr.same hsame) hmine happ ?_ ⟨?_, ?_⟩ ?_
  · intro k _
    rw [hhits, hacks, zero_add, hsame.pendingDelta]
    by_cases hc : k = job.key
    · subst hc
      rw [if_pos rfl, pendingDelta_of_windows hk, hlocal,
        pendingDelta_of_windows (l := (w.limiters i).setState j _) hk, states_setState_self]
    · rw [if_neg (Ne.symm hc), zero_add, pendingDelta_setState_of_ne (hne k hc)]
  · intro x hx
    simp only [World.account, World.limiters_rewrite_self, hsame.flushOf,
      flushOf_setState_self hk, hzero] at hx
    exact (Option.some.inj hx).symm
  · show (w.rewrite i l' evs).applied i job.key = (w.rewrite i l' evs).acked i job.key
    rw [World.applied_rewrite, World.acked_rewrite, hac, happ, hacks, if_pos rfl, add_zero]
  · intro k hc
    simp only [World.account, World.limiters_rewrite_self, World.applied_rewrite,
      World.acked_rewrite, hsame.flushOf, flushOf_setState_of_ne (hne k hc), happ, hacks,
      if_neg (Ne.symm hc), add_zero]

theorem LedgerInv.evalFailed {e : RedisError} {f' : Flush} (h : LedgerInv redis w)
    (hp : w.procs p = some ⟨i, .held (.evalApply f job rest (.error e))⟩)
    (hclock : f'.nowUnix = f.nowUnix) :
    LedgerInv redis ((w.rewrite i ((w.limiters i).nack job.key) []).setProc p i
      (.held (.flushNext f' rest))) := by
  obtain ⟨j, hk, _, hac⟩ := h.owner hp
  have hst := h.states i j (h.mapped i _ j hk).2
  rw [Limiter.nack, hk]
  refine h.settleState (d := 0) hp hclock hk (.refl _) (Reshapes.setState (h.sound i) rfl ?_ id)
    rfl (zero_add _).symm hac (fun e he => by cases he) (fun _ _ => rfl) (fun _ => rfl)
    fun _ => (ite_self _).symm
  exact ⟨hst.expire_nonneg, le_refl _, le_trans hst.flush_nonneg hst.flush_le, hst.dated,
    hst.asked⟩

theorem LedgerInv.evalAcked {v : ℤ} (h : LedgerInv redis w)
    (hp : w.procs p = some ⟨i, .held (.evalApply f job rest (.ok v))⟩) :
    LedgerInv redis ((w.rewrite i ((w.limiters i).ack job.key v job.delta inp.now)
      [.acked i job.key job.delta]).setProc p i (.held (.flushNext f rest))) := by
  obtain ⟨j, hk, hdelta, hac⟩ := h.owner hp
  have hst := h.states i j (h.mapped i _ j hk).2
  have hpos := ((h.procs p i _ hp).jobs job List.mem_cons_self).1
  have hle := hst.flush_le
  have hsame : SameBuffers ((w.limiters i).setState j { (w.limiters i).states j with
      redisKnown := v
      localDelta := ((w.limiters i).states j).localDelta - job.delta
      flushDelta := 0 }) ((w.limiters i).ack job.key v job.delta inp.now) := by
    rw [Limiter.ack, hk]
    exact ⟨rfl, rfl, rfl⟩
  refine h.settleState (d := job.delta) hp rfl hk hsame (Reshapes.setState (h.sound i) rfl ?_ id)
    rfl (add_sub_cancel _ _).symm ?_ ?_ (fun _ _ => rfl) (fun _ => rfl) ?_
  · exact ⟨hst.expire_nonneg, le_refl _, by show (0 : ℤ) ≤ _ - _; omega,
      fun _ => hst.dated (by omega), hst.asked⟩
  · simpa [Todo.landed] using hac
  · intro e he
    rw [List.mem_singleton.mp he]
    rfl
  · intro k
    simp [Event.acks]

end Snapshots

/-! ## Redis, new calls and the rest of a run -/

section Steps

variable {n : ℕ} {w w' : World n} {i : Fin n} {redis : Store} {p : ℕ} {pc pc' : Pc}
  {l' : Limiter} {f : Flush} {job : Job} {rest : List Job}

theorem World.rewrite_nil : w.rewrite i l' [] = w.setLimiter i l' := by
  simp [World.rewrite]

theorem World.setLimiter_self : w.setLimiter i (w.limiters i) = w := by
  simp [World.setLimiter]

theorem LedgerInv.moves (h : LedgerInv redis w) (hp : w.procs p = some ⟨i, pc⟩)
    (hs : SameBuffers (w.limiters i) l') (hok : ProcOk w i pc') (hjobs : pc'.jobs = pc.jobs)
    (hland : pc'.landed = pc.landed) :
    LedgerInv redis ((w.setLimiter i l').setProc p i pc') := by
  rw [← World.rewrite_nil]
  have hq := Quietly.of_same (h.sound i) hs
  exact h.keeps hp (Keeps.of_quiet hq (hok.mono (hq.toReshapes.grows [])) hjobs hland)

theorem LedgerInv.goto (h : LedgerInv redis w) (hp : w.procs p = some ⟨i, pc⟩)
    (hok : ProcOk w i pc') (hjobs : pc'.jobs = pc.jobs) (hland : pc'.landed = pc.landed) :
    LedgerInv redis (w.setProc p i pc') := by
  have hmoved := h.moves hp (SameBuffers.refl _) hok hjobs hland
  rwa [World.setLimiter_self] at hmoved

theorem LedgerInv.spawn (h : LedgerInv redis w) (hok : ProcOk w i pc) (hj : pc.jobs = []) :
    LedgerInv redis (w.spawn i pc) := by
  have hfree := h.unborn w.next (le_refl _)
  refine ⟨World.Known.spawn h.unborn, h.mapped, h.states, ?_, ?_, h.conserve, h.expiry,
    h.total⟩
  · intro q i' qc hq
    rcases World.setProc_procs hq with ⟨_, rfl, rfl⟩ | ⟨_, hold⟩
    · exact hok.mono (Grows.of_eq rfl rfl rfl)
    · exact (h.procs q i' qc hold).mono (Grows.of_eq rfl rfl rfl)
  · refine h.owned.move ?_ ?_ ?_ ?_
    · intro r hr
      have hmem := hr.2
      rw [hj] at hmem
      cases hmem
    · intro r hr
      have hmem := hr.2
      rw [hj] at hmem
      cases hmem
    · intro r hr
      rw [hfree] at hr
      exact hr.elim
    · exact fun _ _ _ => rfl

theorem Store.flush_expireAt {r : Store} {k k' : WindowKey} {d e t : ℤ} {entry : Entry}
    (h : r.flush k d e k' = some entry) (ht : entry.expireAt = some t) :
    (k' = k ∧ t = e) ∨ ∃ old, r k' = some old ∧ old.expireAt = some t := by
  by_cases hk : k' = k
  · subst hk
    cases hr : r k' with
    | none =>
      simp [Store.flush, Store.incrBy, Store.expireAt, hr] at h
      subst h
      injection ht with ht
      exact .inl ⟨rfl, ht.symm⟩
    | some old =>
      simp [Store.flush, Store.incrBy, hr] at h
      subst h
      exact .inr ⟨old, rfl, ht⟩
  · refine .inr ⟨entry, ?_, ht⟩
    simp only [Store.flush] at h
    split at h
    · simpa [Store.incrBy, Store.expireAt, update_of_ne hk] using h
    · simpa [Store.incrBy, update_of_ne hk] using h

theorem LedgerInv.evalApplied (h : LedgerInv redis w)
    (hp : w.procs p = some ⟨i, .evaling f job rest⟩) {v : ℤ} :
    LedgerInv redis (({ w with
      redis := w.redis.flush job.key job.delta job.expireAt
      log := w.log ++ [Event.applied i job.key job.delta] } : World n).setProc p i
        (.lock (.evalApply f job rest (.ok v)))) := by
  have hold := h.procs p i _ hp
  set w' : World n := { w with
    redis := w.redis.flush job.key job.delta job.expireAt
    log := w.log ++ [Event.applied i job.key job.delta] } with hw'
  have hnodup : job.key ∉ rest.map Job.key := (List.nodup_cons.mp hold.nodup).1
  have hnew : ProcOk w i (.lock (.evalApply f job rest (.ok v))) :=
    ⟨fun _ h => (nomatch h), fun _ _ h => (nomatch h), hold.time, hold.jobs, hold.nodup⟩
  have hhits : ∀ i' k, w'.hits i' k = w.hits i' k := fun i' k => by
    simp [World.hits, hw', Event.hits]
  have hack : ∀ i' k, w'.acked i' k = w.acked i' k := fun i' k => by
    simp [World.acked, hw', Event.acks]
  have happ : ∀ i' k, w'.applied i' k =
      w.applied i' k + if i = i' ∧ job.key = k then job.delta else 0 := fun i' k => by
    simp [World.applied, hw', Event.applies]
  have hother : ∀ i' k, ¬ (i = i' ∧ job.key = k) → w'.account (i', k) = w.account (i', k) := by
    intro i' k hne
    simp only [World.account, hack, happ, if_neg hne, add_zero]
    rfl
  have hg : Grows w (w'.setProc p i (.lock (.evalApply f job rest (.ok v)))) :=
    Grows.of_eq rfl rfl rfl
  refine ⟨World.Known.setProc (w := w') h.unborn hp, h.mapped, h.states, ?_, ?_, ?_, ?_, ?_⟩
  · intro q i' qc hq
    rcases World.setProc_procs hq with ⟨_, rfl, rfl⟩ | ⟨_, hq⟩
    · exact hnew.mono hg
    · exact (h.procs q i' qc hq).mono hg
  · refine h.owned.move ?_ ?_ ?_ ?_
    · rintro ⟨i', k⟩ hr job' hjob hkey
      obtain rfl : i = i' := hr.1
      have hok := h.owned.held p (i, k) (by rw [hp]; exact hr)
      rw [hp] at hok
      obtain ⟨hfl, hac⟩ := hok job' hjob hkey
      rw [if_neg (by simp [Pc.landed]), add_zero] at hac
      have hac' : w.applied i k = w.acked i k := hac
      refine ⟨hfl, ?_⟩
      show w'.applied i k = w'.acked i k + _
      rw [happ, hack, hac']
      -- Within one flush the keys differ, so only the EVAL's own key moves.
      by_cases hk : job.key = k
      · subst hk
        rcases List.mem_cons.mp hjob with rfl | hin
        · simp [Pc.landed, Todo.landed]
        · exact absurd (List.mem_map.mpr ⟨job', hin, hkey⟩) hnodup
      · simp [Pc.landed, Todo.landed, hk]
    · intro r hr
      left
      rw [hp]
      exact hr
    · intro r hr hnot
      rw [hp] at hr
      exact absurd hr hnot
    · rintro ⟨i', k⟩ hnot _
      refine hother i' k fun hc => hnot ?_
      rw [hp]
      exact ⟨hc.1, List.mem_map.mpr ⟨job, List.mem_cons_self, hc.2⟩⟩
  · intro i' k hf
    show w'.hits i' k = w'.acked i' k + _
    rw [hhits, hack]
    exact h.conserve i' k hf
  · intro k entry t hk ht
    rcases Store.flush_expireAt hk ht with ⟨rfl, rfl⟩ | ⟨old, hold', ht'⟩
    · exact (hold.jobs job List.mem_cons_self).2
    · exact h.expiry k old t hold' ht'
  · intro k hf
    show (w.redis.flush job.key job.delta job.expireAt).get k = _ + ∑ i', w'.applied i' k
    simp only [happ, Finset.sum_add_distrib]
    by_cases hk : job.key = k
    · subst hk
      rw [Store.get_flush_self, h.total job.key hf]
      simp
      ring
    · rw [Store.get_flush_of_ne (Ne.symm hk), h.total k hf]
      simp [hk]

theorem LedgerInv.expire (h : LedgerInv redis w) {k : WindowKey} {now : ℕ} {t : ℤ}
    (ht : (w.redis k).bind (·.expireAt) = some t) (hle : t ≤ unix now) :
    LedgerInv redis { w.reading now with redis := w.redis.lose k } := by
  obtain ⟨entry, hk, hexp⟩ := Option.bind_eq_some_iff.mp ht
  have hread := h.reading now
  refine { hread with procs := ?_, expiry := ?_, total := ?_ }
  · exact fun q i' qc hq => (hread.procs q i' qc hq).mono (Grows.of_eq rfl rfl rfl)
  · intro k' e t' hk' ht'
    by_cases hc : k' = k
    · subst hc
      simp [Store.lose] at hk'
    · have hsame : w.redis.lose k k' = w.redis k' := update_of_ne hc ..
      exact hread.expiry k' e t' (hsame.symm.trans hk') ht'
  · intro k' hf
    by_cases hc : k' = k
    · subst hc
      have hlt := hf t (h.expiry _ entry t hk hexp)
      have hge : unix now ≤ (w.reading now).clock := le_max_right _ _
      exact absurd (lt_of_le_of_lt (le_trans hle hge) hlt) (lt_irrefl _)
    · show (w.redis.lose k).get k' = _
      rw [Store.get_lose_of_ne hc]
      exact hread.total k' hf

theorem LedgerInv.begin (h : LedgerInv redis w) {key : String} {window : ℤ} {now : ℕ}
    {sl : SlidingWindow} {t : Todo} (hsl : slidingAt key window now = .ok sl)
    (hw : ∀ sl', t.window = some sl' → sl' = sl) (hc : t.cur = none) (hf : t.flush = none)
    (hj : t.jobs = []) :
    LedgerInv redis (((w.reading now).ask sl).spawn i (.lock t)) := by
  obtain ⟨hpos, hspec⟩ := slidingAt_ok hsl
  refine ((h.reading now).ask sl).spawn ⟨?_, ?_, ?_, ?_, ?_⟩ hj
  · intro sl' hsl'
    obtain rfl := hw sl' hsl'
    refine ⟨?_, ?_⟩
    · have hu : (0 : ℤ) ≤ unix now := Int.natCast_nonneg _
      have := hspec.expire_eq
      have := hspec.lt_end
      omega
    · simp [World.ask]
  · intro k j hkj
    cases hc.symm.trans hkj
  · intro f hf'
    cases hf.symm.trans hf'
  · intro job hjob
    rw [show (Pc.lock t).jobs = [] from hj] at hjob
    cases hjob
  · rw [show (Pc.lock t).jobs = [] from hj]
    exact List.nodup_nil

theorem LedgerInv.piece {t : Todo} {inp : Input} {next : Next} {evs : List (Event n)}
    (h : LedgerInv redis w) (hp : w.procs p = some ⟨i, .held t⟩)
    (hnow : unix inp.now ≤ w.clock) (hm : PieceMove i (w.limiters i) inp t l' next evs) :
    LedgerInv redis ((w.rewrite i (next.unlock l') evs).setProc p i next.pc) := by
  have hkeep : Keeps w i (.held t) l' next.pc evs →
      LedgerInv redis ((w.rewrite i (next.unlock l') evs).setProc p i next.pc) :=
    fun hk => h.keeps hp (hk.same Next.unlock_same)
  have hs := h.sound i
  have hsame : Quietly w (w.limiters i) (w.limiters i) := Quietly.of_same hs (.refl _)
  have hold := h.procs p i _ hp
  have hidle : ∀ {evs' : List (Event n)} {pc : Pc} {l : Limiter}, pc.window = none →
      pc.cur = none → pc.flush = none → pc.jobs = [] → ProcOk (w.rewrite i l evs') i pc :=
    ProcOk.idle
  cases hm with
  | flushStart horder => exact h.flushStart hp hnow horder
  | evalFailed => exact h.evalFailed hp rfl
  | evalAcked => exact h.evalAcked hp
  | takeHit => exact hkeep (keeps_takeHit h hp (hidle rfl rfl rfl rfl) rfl rfl)
  | takeMiss | peekMiss =>
    exact hkeep (Keeps.onward h hp hsame (fun _ h => h) (fun _ h => nomatch h) rfl rfl rfl rfl
      rfl)
  | takeRefresh hmap =>
    exact hkeep (Keeps.onward h hp (quietly_raise h hmap (hold.window _ rfl)) (fun _ h => h)
      (fun _ h => nomatch h) rfl rfl rfl rfl rfl)
  | takeBuffered hmap =>
    have hpos := (hold.window _ rfl).1
    have hq := quietly_raise h hmap (hold.window _ rfl)
    refine hkeep (Keeps.of_quiet hq (CurOk.procOk (CurOk.of_windows hq.toSound ?_ ?_)) rfl rfl)
    · rw [windows_raise]; exact hmap
    · rw [states_raise]
      exact ne_of_gt (lt_of_lt_of_le hpos (le_max_right _ _))
  | @takeSeed sl _ known =>
    have hpos := (hold.window _ rfl).1
    have hq : Quietly w (w.limiters i)
        (((w.limiters i).contacted inp.now).applyGet sl.currentKey known sl.expireAt).1 :=
      quietly_seed h (Or.inr (hold.window _ rfl))
    exact hkeep (Keeps.of_quiet hq (CurOk.procOk (CurOk.of_windows hq.toSound applyGet_windows
      (ne_of_gt (lt_of_lt_of_le hpos applyGet_expireAt)))) rfl rfl)
  | takePrevMiss | takePrevBuffered =>
    exact hkeep (Keeps.onward h hp hsame (fun _ h => nomatch h) (fun _ h => h) rfl rfl rfl rfl
      rfl)
  | takePrevSeed =>
    exact hkeep (Keeps.onward h hp (quietly_seed h (Or.inl rfl)) (fun _ h => nomatch h)
      (fun _ h => h) rfl rfl rfl rfl rfl)
  | peekBuffered hmap =>
    exact hkeep (Keeps.of_quiet (quietly_raise h hmap (hold.window _ rfl))
      (hidle rfl rfl rfl rfl) rfl rfl)
  | peekSeed =>
    exact hkeep (Keeps.of_quiet (quietly_seed h (Or.inr (hold.window _ rfl)))
      (hidle rfl rfl rfl rfl) rfl rfl)
  | peekPrevSeed hr =>
    subst hr
    exact hkeep (Keeps.of_quiet (quietly_seed h (Or.inl rfl)) (hidle rfl rfl rfl rfl) rfl rfl)
  | flushLast | flushSend =>
    have hnew := hold.mono (hsame.toReshapes.grows [])
    exact hkeep (Keeps.of_quiet hsame ⟨fun _ h => (nomatch h), fun _ _ h => (nomatch h),
      hnew.time, hnew.jobs, hnew.nodup⟩ rfl rfl)
  | @evict f =>
    have hq := Quietly.evict hs (hold.time f rfl)
    refine hkeep (Keeps.of_quiet (hq.trans hs (Quietly.of_same hq.toSound sameBuffers_storeErr))
      (hidle ?_ ?_ ?_ ?_) ?_ ?_) <;> cases hc : f.caller <;> rw [afterFlush, hc] <;> rfl
  | probeFailed => exact hkeep (Keeps.idle h sameBuffers_storeErr rfl rfl rfl rfl rfl rfl rfl)
  | wakeStarts => exact hkeep (Keeps.idle h sameBuffers_startFlush rfl rfl rfl rfl rfl rfl rfl)
  | _ => exact hkeep (Keeps.idle h ⟨rfl, rfl, rfl⟩ rfl rfl rfl rfl rfl rfl rfl)

theorem LedgerInv.step {a : Action n} (h : LedgerInv redis w) (hstep : w.step a = some w') :
    LedgerInv redis w' := by
  have hidle : ∀ {w₁ : World n} {i : Fin n} {pc : Pc}, pc.window = none → pc.cur = none →
      pc.flush = none → pc.jobs = [] → ProcOk w₁ i pc := ProcOk.idle
  cases Moved.of_step hstep with
  | takeRefused | peekRefused => exact h.reading _
  | took hsl | peeked hsl =>
    exact h.begin hsl (fun _ h => (Option.some.inj h).symm) rfl rfl rfl
  | slept | woken | closing => exact h.spawn (hidle rfl rfl rfl rfl) rfl
  | @fired i timer =>
    have hfired : LedgerInv redis (w.setTimer i timer .fired) := h.limiter ⟨rfl, rfl, rfl⟩
    exact hfired.spawn (hidle rfl rfl rfl rfl) rfl
  | acquired hp =>
    have hold := h.procs _ _ _ hp
    exact h.moves hp ⟨rfl, rfl, rfl⟩
      ⟨hold.window, hold.cur, hold.time, hold.jobs, hold.nodup⟩ rfl rfl
  | piece hp hm => exact (h.reading _).piece hp (le_max_right _ _) hm
  | tickDone hp | stopInTime hp | stopDone hp =>
    exact h.moves hp ⟨rfl, rfl, rfl⟩ (hidle rfl rfl rfl rfl) rfl rfl
  | stopLate hp | stopWaited hp => exact h.goto hp (hidle rfl rfl rfl rfl) rfl rfl
  | @gotError _ _ g _ hp | @got _ _ g hp =>
    have hold := h.procs _ _ _ hp
    cases g <;>
      exact h.goto hp ⟨hold.window, hold.cur, hold.time, hold.jobs, hold.nodup⟩ rfl rfl
  | evalError hp =>
    have hold := h.procs _ _ _ hp
    exact h.goto hp ⟨fun _ h => (nomatch h), fun _ _ h => (nomatch h), hold.time, hold.jobs,
      hold.nodup⟩ rfl rfl
  | evaled hp hr =>
    subst hr
    exact h.evalApplied hp
  | expired hexp hnow => exact h.expire hexp hnow

theorem LedgerInv.applied_of_quiet {k : WindowKey} (h : LedgerInv redis w)
    (hquiet : ∀ p, ¬ w.InFlight p i k) : w.applied i k = w.acked i k := by
  by_cases hown : ∃ q, Flushes (w.procs q) (i, k)
  · obtain ⟨q, hq⟩ := hown
    have hok := h.owned.held q (i, k) hq
    cases hproc : w.procs q with
    | none => rw [hproc] at hq; exact hq.elim
    | some qp =>
      rw [hproc] at hq hok
      obtain ⟨job, hjob, hkey⟩ := List.mem_map.mp hq.2
      have hac := (hok job hjob hkey).2
      rw [if_neg, add_zero] at hac
      · exact hac
      · intro hc
        obtain ⟨⟨k', v⟩, hland, hk'⟩ := Option.map_eq_some_iff.mp hc
        obtain rfl : k' = k := hk'
        obtain rfl : qp.limiter = i := hq.1
        exact hquiet q ⟨qp.pc, hproc, Pc.landed_inFlight hland⟩
  · exact (h.owned.rests (i, k) fun q hq => hown ⟨q, hq⟩).2

theorem ledgerInv_init {limiters : Fin n → Limiter}
    (hnew : ∀ i, ∃ rate, 0 < rate ∧ Limiter.new rate = some (limiters i)) :
    LedgerInv redis (World.init redis limiters) := by
  have hempty : ∀ i, (limiters i).windows = (fun _ => none) ∧ (limiters i).nextPtr = 0 := by
    intro i
    obtain ⟨rate, _, hnew⟩ := hnew i
    exact Limiter.new_empty hnew
  refine ⟨fun _ _ => rfl, ?_, ?_, fun _ _ _ h => (nomatch h), ⟨?_, ?_, ?_⟩, ?_, ?_, ?_⟩
  · intro i k j hk
    have hk' : (limiters i).windows k = some j := hk
    rw [(hempty i).1] at hk'
    cases hk'
  · intro i j hj
    have hj' : j < (limiters i).nextPtr := hj
    rw [(hempty i).2] at hj'
    exact absurd hj' (Nat.not_lt_zero j)
  · exact fun _ _ h => h.elim
  · exact fun _ _ _ h => h.elim
  · intro r _
    refine ⟨?_, rfl⟩
    intro d hd
    have hd' : ((limiters r.1).windows r.2).map _ = some d := hd
    rw [(hempty r.1).1] at hd'
    cases hd'
  · intro i k _
    show (0 : ℤ) = 0 + (limiters i).pendingDelta k
    rw [Limiter.pendingDelta, (hempty i).1]
    rfl
  · intro k e t hk ht
    have hk' : redis k = some e := hk
    show t ∈ ((redis k).bind (·.expireAt)).toList
    rw [hk', Option.bind_some, ht]
    exact List.mem_singleton_self t
  · intro k _
    simp [World.init, World.applied]

end Steps

/-! ## Conservation -/

/-- For every run of any number of buffered limiters over one Redis and
every window key whose expiry no clock reading has reached: each limiter's
hits are its acknowledged deltas plus the `localDelta` its map holds, the
snapshot in flight is a part of that `localDelta` and has one EVAL, and when
no EVAL is in flight Redis plus the pending deltas is what Redis held plus
all hits. -/
theorem buffered_conservation {n : ℕ} (redis : Store) (limiters : Fin n → Limiter)
    (hnew : ∀ i, ∃ rate, 0 < rate ∧ Limiter.new rate = some (limiters i))
    (acts : List (Action n)) (w : World n)
    (hrun : run World.step (World.init redis limiters) acts = some w)
    (k : WindowKey) (hfresh : w.Fresh k) :
    (∀ i, w.hits i k = w.acked i k + (w.limiters i).pendingDelta k) ∧
    (∀ i j, (w.limiters i).windows k = some j →
      0 ≤ ((w.limiters i).states j).flushDelta ∧
        ((w.limiters i).states j).flushDelta ≤ ((w.limiters i).states j).localDelta) ∧
    (∀ i p q, w.InFlight p i k → w.InFlight q i k → p = q) ∧
    ((∀ p i, ¬ w.InFlight p i k) →
      w.redis.get k + ∑ i, (w.limiters i).pendingDelta k =
        redis.get k + ∑ i, w.hits i k) := by
  have h : LedgerInv redis w :=
    run_inv (fun _ _ _ hi hs => hi.step hs) (ledgerInv_init hnew) hrun
  refine ⟨fun i => h.conserve i k hfresh, ?_, ?_, ?_⟩
  · intro i j hk
    have hst := h.states i j (h.mapped i k j hk).2
    exact ⟨hst.flush_nonneg, hst.flush_le⟩
  · have howns : ∀ p i, w.InFlight p i k → Flushes (w.procs p) (i, k) := by
      rintro p i ⟨pc, hp, hpc⟩
      obtain ⟨job, hjob, hkey⟩ := Pc.inFlight_mem hpc
      rw [hp]
      exact ⟨rfl, List.mem_map.mpr ⟨job, hjob, hkey⟩⟩
    intro i p q hp hq
    exact h.owned.unique p q (i, k) (howns p i hp) (howns q i hq)
  · intro hquiet
    have hsettled : ∀ i, w.applied i k = w.acked i k :=
      fun i => h.applied_of_quiet fun p => hquiet p i
    rw [h.total k hfresh, add_assoc, ← Finset.sum_add_distrib]
    congr 1
    refine Finset.sum_congr rfl fun i _ => ?_
    rw [hsettled i, h.conserve i k hfresh]

/-- A limiter that flushes every second. -/
def everySecond : Limiter := (Limiter.new 1000000000).get rfl

def sole : Fin 1 := ⟨0, Nat.one_pos⟩

def pieces {n : ℕ} (p times : ℕ) : List (Action n) :=
  List.replicate times (.run p ⟨0, [], none⟩)

def piecesAt {n : ℕ} (p times now : ℕ) : List (Action n) :=
  List.replicate times (.run p ⟨now, [], none⟩)

def takeAlone {n : ℕ} (i : Fin n) (p : ℕ) : List (Action n) :=
  [Action.take i "k" 1 1000000000 0] ++ pieces p 2 ++ [Action.get p none] ++ pieces p 3 ++
    [Action.get p none] ++ pieces p 4

def flushAlone {n : ℕ} (i : Fin n) (timer p : ℕ) : List (Action n) :=
  [Action.fire i timer] ++ pieces p 1 ++ [Action.run p ⟨0, [0], none⟩] ++ pieces p 1 ++
    [Action.eval p none] ++ pieces p 6

/-- Both limiters count a hit and the first one flushes its own. -/
def twoLimiters : List (Action 2) := takeAlone 0 0 ++ takeAlone 1 1 ++ flushAlone 0 0 2

theorem buffered_conservation_twoLimiters :
    ∃ w, run World.step (World.init Store.empty fun _ => everySecond) twoLimiters = some w ∧
      w.Fresh ⟨"k", 0⟩ ∧ w.acked 0 ⟨"k", 0⟩ = 1 ∧ (w.limiters 1).pendingDelta ⟨"k", 0⟩ = 1 ∧
      ∀ i, w.hits i ⟨"k", 0⟩ = w.acked i ⟨"k", 0⟩ + (w.limiters i).pendingDelta ⟨"k", 0⟩ :=
  ⟨_, rfl, by decide +kernel, by decide +kernel, by decide +kernel,
    (buffered_conservation Store.empty (fun _ => everySecond)
      (fun _ => ⟨1000000000, by decide, (Option.some_get _).symm⟩) twoLimiters _ rfl ⟨"k", 0⟩
      (by decide +kernel)).1⟩

end MiddlewareUtils.WindowCounter
