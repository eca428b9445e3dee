import MiddlewareUtils.Lib.Ownership
import MiddlewareUtils.WindowCounter.Moves
import Mathlib.Tactic.Ring

/-!
# What a buffered limiter keeps true between its locks

The mutex is released around every GET and EVAL, so nothing a call knew
before the release need be true after it. Three things survive, and the
conservation of hits rests on them.

* **A snapshot has one owner.** A flush that sets `flushDelta` owns the key
  until it has seen the EVAL's outcome: other flushes skip the key and the
  eviction keeps it. This is the ownership discipline of `Lib.Ownership`
  with the window keys as resources, so `localDelta -= delta` always hits
  the buffer the delta was copied from.

* **A pointer in hand is a buffer in the map, while the window lasts.** A
  Take holds its `*windowState` across the GET of the previous window. The
  buffer carries the expiry that Take asked for, so an eviction needs a
  clock reading past it, and until some reading is there the hit lands in
  the buffer the map still holds.

* **Redis has what was applied.** An EVAL moves its delta into Redis when it
  is applied and out of `localDelta` when it is acknowledged, and between
  the two the owner's program counter carries it.
-/

namespace MiddlewareUtils.WindowCounter

open Lib Function

/-! ## The invariant -/

structure StateOk (asked : WindowKey → List ℤ) (st : WindowState) : Prop where
  expire_nonneg : 0 ≤ st.expireAt
  flush_nonneg : 0 ≤ st.flushDelta
  flush_le : st.flushDelta ≤ st.localDelta
  dated : st.localDelta ≠ 0 → st.expireAt ≠ 0
  asked : st.expireAt ≠ 0 → st.expireAt ∈ asked st.key

structure CurOk {n : ℕ} (w : World n) (i : Fin n) (k : WindowKey) (j : Ptr) : Prop where
  lt : j < (w.limiters i).nextPtr
  key : ((w.limiters i).states j).key = k
  dated : ((w.limiters i).states j).expireAt ≠ 0
  mapped : w.Fresh k → (w.limiters i).windows k = some j

structure ProcOk {n : ℕ} (w : World n) (i : Fin n) (pc : Pc) : Prop where
  window : ∀ sl, pc.window = some sl →
    0 < sl.expireAt ∧ sl.expireAt ∈ w.asked sl.currentKey
  cur : ∀ k j, pc.cur = some (k, j) → CurOk w i k j
  time : ∀ f, pc.flush = some f → f.nowUnix ≤ w.clock
  jobs : ∀ job ∈ pc.jobs, 0 < job.delta ∧ job.expireAt ∈ w.asked job.key
  nodup : (pc.jobs.map Job.key).Nodup

structure Account where
  flush : Option ℤ
  applied : ℤ
  acked : ℤ

def World.account {n : ℕ} (w : World n) (r : Fin n × WindowKey) : Account :=
  ⟨(w.limiters r.1).flushOf r.2, w.applied r.1 r.2, w.acked r.1 r.2⟩

def Flushes {n : ℕ} : Option (Proc n) → Fin n × WindowKey → Prop
  | none, _ => False
  | some q, r => q.limiter = r.1 ∧ r.2 ∈ q.pc.jobs.map Job.key

def FlushOk {n : ℕ} : Option (Proc n) → Fin n × WindowKey → Account → Prop
  | none, _, _ => False
  | some q, r, s => ∀ job ∈ q.pc.jobs, job.key = r.2 →
      s.flush = some job.delta ∧
        s.applied = s.acked + if q.pc.landed.map Prod.fst = some r.2 then job.delta else 0

def FlushRests {n : ℕ} (_ : Fin n × WindowKey) (s : Account) : Prop :=
  (∀ d, s.flush = some d → d = 0) ∧ s.applied = s.acked

structure LedgerInv {n : ℕ} (redis : Store) (w : World n) : Prop where
  unborn : ∀ p, w.next ≤ p → w.procs p = none
  mapped : ∀ i k j, (w.limiters i).windows k = some j →
    ((w.limiters i).states j).key = k ∧ j < (w.limiters i).nextPtr
  states : ∀ i j, j < (w.limiters i).nextPtr → StateOk w.asked ((w.limiters i).states j)
  procs : ∀ p i pc, w.procs p = some ⟨i, pc⟩ → ProcOk w i pc
  owned : Owned Flushes FlushOk FlushRests w.procs w.account
  conserve : ∀ i k, w.Fresh k → w.hits i k = w.acked i k + (w.limiters i).pendingDelta k
  expiry : ∀ k e t, w.redis k = some e → e.expireAt = some t → t ∈ w.asked k
  total : ∀ k, w.Fresh k → w.redis.get k = redis.get k + ∑ i, w.applied i k

/-! ## Moving the world on

Readings only grow, so a key that is fresh afterwards was fresh before. What
a call knows about its buffer and its flush survives any step that keeps
the pointers, the keys they stand for and the buffers of fresh keys. -/

structure Grows {n : ℕ} (w w' : World n) : Prop where
  clock : w.clock ≤ w'.clock
  asked : ∀ k t, t ∈ w.asked k → t ∈ w'.asked k
  ptr : ∀ i j, j < (w.limiters i).nextPtr → j < (w'.limiters i).nextPtr ∧
    ((w'.limiters i).states j).key = ((w.limiters i).states j).key ∧
    (((w.limiters i).states j).expireAt ≠ 0 → ((w'.limiters i).states j).expireAt ≠ 0)
  kept : ∀ i k j, w'.Fresh k → (w.limiters i).windows k = some j →
    ((w.limiters i).states j).expireAt ≠ 0 → (w'.limiters i).windows k = some j

structure SameBuffers (l l' : Limiter) : Prop where
  windows : l'.windows = l.windows
  states : l'.states = l.states
  nextPtr : l'.nextPtr = l.nextPtr

section Growing

variable {n : ℕ} {w w' : World n} {i : Fin n} {pc : Pc} {redis : Store} {l l' : Limiter}
  {k : WindowKey}

theorem SameBuffers.refl (l : Limiter) : SameBuffers l l := ⟨rfl, rfl, rfl⟩

theorem SameBuffers.flushOf (hs : SameBuffers l l') : l'.flushOf k = l.flushOf k := by
  rw [Limiter.flushOf, hs.windows, hs.states]; rfl

theorem SameBuffers.pendingDelta (hs : SameBuffers l l') :
    l'.pendingDelta k = l.pendingDelta k := by
  rw [Limiter.pendingDelta, hs.windows, hs.states]; rfl

theorem Grows.fresh (h : Grows w w') (hk : w'.Fresh k) : w.Fresh k :=
  fun t ht => lt_of_le_of_lt h.clock (hk t (h.asked k t ht))

theorem Grows.of_same (hc : w.clock ≤ w'.clock) (ha : ∀ k t, t ∈ w.asked k → t ∈ w'.asked k)
    (hl : ∀ i, SameBuffers (w.limiters i) (w'.limiters i)) : Grows w w' := by
  refine ⟨hc, ha, ?_, ?_⟩
  · intro i j hj
    rw [(hl i).nextPtr, (hl i).states]
    exact ⟨hj, rfl, id⟩
  · intro i k j _ hk _
    rw [(hl i).windows]
    exact hk

theorem Grows.of_eq (hc : w'.clock = w.clock) (ha : w'.asked = w.asked)
    (hl : w'.limiters = w.limiters) : Grows w w' :=
  .of_same (le_of_eq hc.symm) (by rw [ha]; exact fun _ _ ht => ht)
    (by rw [hl]; exact fun _ => .refl _)

theorem CurOk.mono {j : Ptr} (hc : CurOk w i k j) (h : Grows w w') : CurOk w' i k j := by
  obtain ⟨hlt, hkey, hdated⟩ := h.ptr i j hc.lt
  exact ⟨hlt, hkey.trans hc.key, hdated hc.dated,
    fun hf => h.kept i k j hf (hc.mapped (h.fresh hf)) hc.dated⟩

theorem ProcOk.mono (hp : ProcOk w i pc) (h : Grows w w') : ProcOk w' i pc where
  window := fun sl hsl => ⟨(hp.window sl hsl).1, h.asked _ _ (hp.window sl hsl).2⟩
  cur := fun k j hc => (hp.cur k j hc).mono h
  time := fun f hf => le_trans (hp.time f hf) h.clock
  jobs := fun job hj => ⟨(hp.jobs job hj).1, h.asked _ _ (hp.jobs job hj).2⟩
  nodup := hp.nodup

theorem StateOk.mono {asked asked' : WindowKey → List ℤ} {st : WindowState}
    (h : StateOk asked st) (hle : ∀ k t, t ∈ asked k → t ∈ asked' k) : StateOk asked' st :=
  { h with asked := fun hne => hle _ _ (h.asked hne) }

theorem LedgerInv.quiet (h : LedgerInv redis w) (hc : w.clock ≤ w'.clock)
    (ha : ∀ k t, t ∈ w.asked k → t ∈ w'.asked k)
    (hlim : ∀ i, SameBuffers (w.limiters i) (w'.limiters i)) (hredis : w'.redis = w.redis)
    (hnext : w'.next = w.next) (hprocs : w'.procs = w.procs) (hlog : w'.log = w.log) :
    LedgerInv redis w' := by
  have hg : Grows w w' := .of_same hc ha hlim
  have hhits : ∀ i k, w'.hits i k = w.hits i k := fun i k => by rw [World.hits, hlog]; rfl
  have hack : ∀ i k, w'.acked i k = w.acked i k := fun i k => by rw [World.acked, hlog]; rfl
  have happ : ∀ i k, w'.applied i k = w.applied i k := fun i k => by
    rw [World.applied, hlog]; rfl
  refine ⟨?_, ?_, ?_, ?_, ?_, ?_, ?_, ?_⟩
  · rw [hnext, hprocs]; exact h.unborn
  · intro i k j hk
    rw [(hlim i).windows] at hk
    rw [(hlim i).states, (hlim i).nextPtr]
    exact h.mapped i k j hk
  · intro i j hj
    rw [(hlim i).nextPtr] at hj
    rw [(hlim i).states]
    exact (h.states i j hj).mono ha
  · rw [hprocs]; exact fun p i pc hp => (h.procs p i pc hp).mono hg
  · have hacc : w'.account = w.account := by
      funext r
      rw [World.account, World.account, (hlim r.1).flushOf, happ, hack]
    rw [hprocs, hacc]; exact h.owned
  · intro i k hf
    rw [hhits, hack, (hlim i).pendingDelta]; exact h.conserve i k (hg.fresh hf)
  · rw [hredis]; exact fun k e t hk ht => ha k t (h.expiry k e t hk ht)
  · intro k hf
    rw [hredis, h.total k (hg.fresh hf)]
    simp only [happ]

theorem LedgerInv.reading (h : LedgerInv redis w) (now : ℕ) :
    LedgerInv redis (w.reading now) :=
  h.quiet (le_max_left _ _) (fun _ _ ht => ht) (fun _ => .refl _) rfl rfl rfl rfl

theorem mem_ask {sl : SlidingWindow} {t : ℤ} (h : t ∈ w.asked k) :
    t ∈ (w.ask sl).asked k := by
  by_cases hk : k = sl.currentKey
  · subst hk; simp [World.ask, h]
  · simp [World.ask, update_of_ne hk, h]

theorem LedgerInv.ask (h : LedgerInv redis w) (sl : SlidingWindow) :
    LedgerInv redis (w.ask sl) :=
  h.quiet (le_refl _) (fun _ _ => mem_ask) (fun _ => .refl _) rfl rfl rfl rfl

theorem LedgerInv.limiter (h : LedgerInv redis w) (hs : SameBuffers (w.limiters i) l) :
    LedgerInv redis (w.setLimiter i l) := by
  refine h.quiet (le_refl _) (fun _ _ ht => ht) ?_ rfl rfl rfl rfl
  exact (forall_update_iff w.limiters (p := fun i' l' => SameBuffers (w.limiters i') l')).mpr
    ⟨hs, fun _ _ => .refl _⟩

end Growing

/-! ## One process, one limiter

`LedgerInv.advance` is what every lock-held piece comes down to: a limiter
is rewritten, a process moves, and the log gets what the piece counted. -/

structure Sound {n : ℕ} (w : World n) (l : Limiter) : Prop where
  mapped : ∀ k j, l.windows k = some j → (l.states j).key = k ∧ j < l.nextPtr
  states : ∀ j, j < l.nextPtr → StateOk w.asked (l.states j)

structure Reshapes {n : ℕ} (w : World n) (l l' : Limiter) : Prop extends Sound w l' where
  ptr : ∀ j, j < l.nextPtr → j < l'.nextPtr ∧ (l'.states j).key = (l.states j).key ∧
    ((l.states j).expireAt ≠ 0 → (l'.states j).expireAt ≠ 0)
  kept : ∀ k j, w.Fresh k → l.windows k = some j → (l.states j).expireAt ≠ 0 →
    l'.windows k = some j

def Event.limiter {n : ℕ} : Event n → Fin n
  | hit i _ _ | applied i _ _ | acked i _ _ => i

def World.rewrite {n : ℕ} (w : World n) (i : Fin n) (l : Limiter) (evs : List (Event n)) :
    World n :=
  ({ w with log := w.log ++ evs } : World n).setLimiter i l

section Advance

variable {n : ℕ} {w : World n} {i i' : Fin n} {pc pc' : Pc} {redis : Store} {p : ℕ}
  {l' : Limiter} {evs : List (Event n)} {k : WindowKey}

theorem Event.sum_of_ne {f : Event n → ℤ} (hf : ∀ e ∈ evs, f e = 0) :
    (evs.map f).sum = 0 :=
  List.sum_eq_zero fun x hx => by
    obtain ⟨e, he, rfl⟩ := List.mem_map.mp hx
    exact hf e he

theorem Event.hits_of_ne {e : Event n} (h : e.limiter ≠ i) : e.hits i k = 0 := by
  cases e with
  | hit i' k' a => exact if_neg fun hc => h hc.1
  | _ => rfl

theorem Event.acks_of_ne {e : Event n} (h : e.limiter ≠ i) : e.acks i k = 0 := by
  cases e with
  | acked i' k' a => exact if_neg fun hc => h hc.1
  | _ => rfl

theorem Event.applies_of_ne {e : Event n} (h : e.limiter ≠ i) : e.applies i k = 0 := by
  cases e with
  | applied i' k' a => exact if_neg fun hc => h hc.1
  | _ => rfl

@[simp] theorem World.hits_rewrite : (w.rewrite i l' evs).hits i' k =
    w.hits i' k + (evs.map (Event.hits i' k)).sum := by
  simp [World.rewrite, World.hits, World.setLimiter]

@[simp] theorem World.acked_rewrite : (w.rewrite i l' evs).acked i' k =
    w.acked i' k + (evs.map (Event.acks i' k)).sum := by
  simp [World.rewrite, World.acked, World.setLimiter]

@[simp] theorem World.applied_rewrite : (w.rewrite i l' evs).applied i' k =
    w.applied i' k + (evs.map (Event.applies i' k)).sum := by
  simp [World.rewrite, World.applied, World.setLimiter]

@[simp] theorem World.limiters_rewrite_self : (w.rewrite i l' evs).limiters i = l' :=
  update_self ..

theorem World.limiters_rewrite_of_ne (h : i' ≠ i) :
    (w.rewrite i l' evs).limiters i' = w.limiters i' :=
  update_of_ne h ..

theorem LedgerInv.sound (h : LedgerInv redis w) (i : Fin n) : Sound w (w.limiters i) :=
  ⟨h.mapped i, h.states i⟩

theorem Reshapes.grows (hr : Reshapes w (w.limiters i) l') (evs : List (Event n)) :
    Grows w (w.rewrite i l' evs) := by
  refine ⟨le_refl _, fun _ _ ht => ht, ?_, ?_⟩
  · intro i' j hj
    by_cases hi : i' = i
    · subst hi; rw [World.limiters_rewrite_self]; exact hr.ptr j hj
    · rw [World.limiters_rewrite_of_ne hi]; exact ⟨hj, rfl, id⟩
  · intro i' k j hf hk hd
    by_cases hi : i' = i
    · subst hi; rw [World.limiters_rewrite_self]; exact hr.kept k j hf hk hd
    · rw [World.limiters_rewrite_of_ne hi]; exact hk

theorem LedgerInv.advance (h : LedgerInv redis w) (hp : w.procs p = some ⟨i, pc⟩)
    (hr : Reshapes w (w.limiters i) l') (hok : ProcOk (w.rewrite i l' evs) i pc')
    (howned : Owned Flushes FlushOk FlushRests (update w.procs p (some ⟨i, pc'⟩))
      (w.rewrite i l' evs).account)
    (hmine : ∀ e ∈ evs, e.limiter = i)
    (happ : ∀ i' k, (evs.map (Event.applies i' k)).sum = 0)
    (hcons : ∀ k, w.Fresh k →
      (evs.map (Event.hits i k)).sum + (w.limiters i).pendingDelta k =
        (evs.map (Event.acks i k)).sum + l'.pendingDelta k) :
    LedgerInv redis ((w.rewrite i l' evs).setProc p i pc') := by
  have hg : Grows w (w.rewrite i l' evs) := hr.grows evs
  have hsound : ∀ i', Sound w ((w.rewrite i l' evs).limiters i') :=
    (forall_update_iff w.limiters (p := fun _ l => Sound w l)).mpr
      ⟨hr.toSound, fun i' _ => h.sound i'⟩
  refine ⟨World.Known.setProc h.unborn hp, fun i' => (hsound i').mapped,
    fun i' => (hsound i').states, ?_, howned, ?_, h.expiry, ?_⟩
  · intro q i' qc hq
    have hmoved : Grows (w.rewrite i l' evs) ((w.rewrite i l' evs).setProc p i pc') :=
      Grows.of_eq rfl rfl rfl
    rcases World.setProc_procs hq with ⟨_, rfl, rfl⟩ | ⟨_, hold⟩
    · exact hok.mono hmoved
    · exact ((h.procs q i' qc hold).mono hg).mono hmoved
  · intro i' k hf
    show (w.rewrite i l' evs).hits i' k = (w.rewrite i l' evs).acked i' k +
      ((w.rewrite i l' evs).limiters i').pendingDelta k
    rw [World.hits_rewrite, World.acked_rewrite]
    have hold := h.conserve i' k hf
    by_cases hi : i' = i
    · subst hi
      rw [World.limiters_rewrite_self]
      have := hcons k hf
      omega
    · rw [World.limiters_rewrite_of_ne hi]
      have hh : (evs.map (Event.hits i' k)).sum = 0 := Event.sum_of_ne
        fun e he => Event.hits_of_ne fun hc => hi (hc.symm.trans (hmine e he))
      have ha : (evs.map (Event.acks i' k)).sum = 0 := Event.sum_of_ne
        fun e he => Event.acks_of_ne fun hc => hi (hc.symm.trans (hmine e he))
      omega
  · intro k hf
    show w.redis.get k = redis.get k + ∑ i', (w.rewrite i l' evs).applied i' k
    rw [h.total k hf]
    congr 1
    refine Finset.sum_congr rfl fun i' _ => ?_
    rw [World.applied_rewrite, happ i' k, add_zero]

end Advance

/-! ## Rewrites that leave the ledger alone

Everything except a hit and the bookkeeping of a flush: `raise`,
`applyGet`, the eviction, and the fields no count is kept in. -/

structure Quietly {n : ℕ} (w : World n) (l l' : Limiter) : Prop extends Reshapes w l l' where
  flush : ∀ k, l'.flushOf k = l.flushOf k ∨
    ((l.flushOf k).getD 0 = 0 ∧ (l'.flushOf k).getD 0 = 0)
  pend : ∀ k, w.Fresh k → l'.pendingDelta k = l.pendingDelta k

section Quiet

variable {n : ℕ} {w : World n} {l l' l'' : Limiter} {j : Ptr} {st : WindowState}
  {k : WindowKey} {e : ℤ}

theorem Sound.same (h : Sound w l) (hs : SameBuffers l l') : Sound w l' := by
  refine ⟨?_, ?_⟩
  · rw [hs.windows, hs.states, hs.nextPtr]; exact h.mapped
  · rw [hs.states, hs.nextPtr]; exact h.states

theorem Reshapes.same (h : Reshapes w l l') (hs : SameBuffers l' l'') : Reshapes w l l'' := by
  refine ⟨h.toSound.same hs, ?_, ?_⟩
  · rw [hs.nextPtr, hs.states]; exact h.ptr
  · rw [hs.windows]; exact h.kept

theorem Quietly.of_same (h : Sound w l) (hs : SameBuffers l l') : Quietly w l l' where
  toSound := h.same hs
  ptr := fun j hj => by rw [hs.nextPtr, hs.states]; exact ⟨hj, rfl, id⟩
  kept := fun k j _ hk _ => by rw [hs.windows]; exact hk
  flush := fun _ => Or.inl hs.flushOf
  pend := fun _ _ => hs.pendingDelta

theorem Quietly.trans (hs : Sound w l) (h : Quietly w l l') (h' : Quietly w l' l'') :
    Quietly w l l'' where
  toSound := h'.toSound
  ptr := fun j hj => by
    obtain ⟨hlt, hkey, hd⟩ := h.ptr j hj
    obtain ⟨hlt', hkey', hd'⟩ := h'.ptr j hlt
    exact ⟨hlt', hkey'.trans hkey, fun hne => hd' (hd hne)⟩
  kept := fun k j hf hk hd =>
    h'.kept k j hf (h.kept k j hf hk hd) ((h.ptr j (hs.mapped k j hk).2).2.2 hd)
  flush := fun k => by
    rcases h.flush k with h₁ | ⟨h₁, h₂⟩ <;> rcases h'.flush k with h₃ | ⟨h₃, h₄⟩
    · exact .inl (h₃.trans h₁)
    · exact .inr ⟨h₁ ▸ h₃, h₄⟩
    · exact .inr ⟨h₁, h₃.symm ▸ h₂⟩
    · exact .inr ⟨h₁, h₄⟩
  pend := fun k hf => (h'.pend k hf).trans (h.pend k hf)

theorem states_setState_self : (l.setState j st).states j = st := update_self ..

theorem states_setState_of_ne {j' : Ptr} (h : j' ≠ j) :
    (l.setState j st).states j' = l.states j' := update_of_ne h ..

theorem Reshapes.setState (hs : Sound w l) (hkey : st.key = (l.states j).key)
    (hst : StateOk w.asked st)
    (hdated : (l.states j).expireAt ≠ 0 → st.expireAt ≠ 0) :
    Reshapes w l (l.setState j st) := by
  refine ⟨⟨?_, ?_⟩, ?_, fun _ _ _ hk _ => hk⟩
  · intro k j' hk
    obtain ⟨hk', hlt⟩ := hs.mapped k j' hk
    refine ⟨?_, hlt⟩
    by_cases hj : j' = j
    · subst hj; rw [states_setState_self, hkey]; exact hk'
    · rw [states_setState_of_ne hj]; exact hk'
  · intro j' hlt
    by_cases hj : j' = j
    · subst hj; rw [states_setState_self]; exact hst
    · rw [states_setState_of_ne hj]; exact hs.states j' hlt
  · intro j' hlt
    refine ⟨hlt, ?_⟩
    by_cases hj : j' = j
    · subst hj; rw [states_setState_self]; exact ⟨hkey, hdated⟩
    · rw [states_setState_of_ne hj]; exact ⟨rfl, id⟩

theorem flushOf_setState (hf : st.flushDelta = (l.states j).flushDelta) :
    (l.setState j st).flushOf k = l.flushOf k := by
  show (l.windows k).map _ = (l.windows k).map _
  congr 1
  funext j'
  by_cases hj : j' = j
  · subst hj; rw [states_setState_self, hf]
  · rw [states_setState_of_ne hj]

theorem pendingDelta_of_windows (h : l.windows k = some j) :
    l.pendingDelta k = (l.states j).localDelta := by
  rw [Limiter.pendingDelta, h]

theorem pendingDelta_setState_of_ne (h : l.windows k ≠ some j) :
    (l.setState j st).pendingDelta k = l.pendingDelta k := by
  cases hk : l.windows k with
  | none =>
    rw [Limiter.pendingDelta, Limiter.pendingDelta, hk]
    exact (by rw [Limiter.setState, hk])
  | some j' =>
    have hj : j' ≠ j := fun hc => h (hc ▸ hk)
    rw [pendingDelta_of_windows hk, pendingDelta_of_windows (l := l.setState j st) hk,
      states_setState_of_ne hj]

theorem pendingDelta_setState (hd : st.localDelta = (l.states j).localDelta) :
    (l.setState j st).pendingDelta k = l.pendingDelta k := by
  by_cases hk : l.windows k = some j
  · rw [pendingDelta_of_windows hk, pendingDelta_of_windows (l := l.setState j st) hk,
      states_setState_self, hd]
  · exact pendingDelta_setState_of_ne hk

theorem pendingDelta_raise : (l.raise j e).pendingDelta k = l.pendingDelta k := by
  unfold Limiter.raise
  split
  · exact pendingDelta_setState rfl
  · rfl

theorem pendingDelta_applyGet {k' : WindowKey} {known : ℤ}
    (hptr : ∀ k j, l.windows k = some j → j < l.nextPtr) :
    (l.applyGet k known e).1.pendingDelta k' = l.pendingDelta k' := by
  unfold Limiter.applyGet
  cases hk : l.windows k with
  | none =>
    by_cases hc : k' = k
    · subst hc
      simp [Limiter.pendingDelta, hk]
    · simp only [Limiter.pendingDelta, update_of_ne hc]
      cases hk' : l.windows k' with
      | none => rfl
      | some j' => dsimp only; rw [update_of_ne (ne_of_lt (hptr k' j' hk'))]
  | some j =>
    dsimp only
    split
    · refine (pendingDelta_setState ?_).trans pendingDelta_raise
      rfl
    · exact pendingDelta_raise

theorem Quietly.setState (hs : Sound w l) (hkey : st.key = (l.states j).key)
    (hst : StateOk w.asked st) (hdated : (l.states j).expireAt ≠ 0 → st.expireAt ≠ 0)
    (hf : st.flushDelta = (l.states j).flushDelta)
    (hd : st.localDelta = (l.states j).localDelta) : Quietly w l (l.setState j st) where
  toReshapes := Reshapes.setState hs hkey hst hdated
  flush := fun _ => Or.inl (flushOf_setState hf)
  pend := fun _ _ => pendingDelta_setState hd

theorem Quietly.raise (hs : Sound w l) (hj : j < l.nextPtr)
    (he : e = 0 ∨ (0 < e ∧ e ∈ w.asked (l.states j).key)) : Quietly w l (l.raise j e) := by
  unfold Limiter.raise
  have hold := hs.states j hj
  split
  next hgt =>
    have hpos : 0 < e := lt_of_le_of_lt hold.expire_nonneg hgt
    obtain ⟨_, hmem⟩ := he.resolve_left (ne_of_gt hpos)
    exact Quietly.setState hs rfl
      ⟨le_of_lt hpos, hold.flush_nonneg, hold.flush_le, fun _ => ne_of_gt hpos, fun _ => hmem⟩
      (fun _ => ne_of_gt hpos) rfl rfl
  · exact Quietly.of_same hs (SameBuffers.refl l)

@[simp] theorem windows_raise : (l.raise j e).windows = l.windows := by
  unfold Limiter.raise
  split <;> rfl

theorem states_raise : (l.raise j e).states j =
    { l.states j with expireAt := max (l.states j).expireAt e } := by
  unfold Limiter.raise
  split
  next h => rw [states_setState_self, max_eq_right (le_of_lt h)]
  next h => rw [max_eq_left (not_lt.mp h)]

theorem Quietly.applyGet (hs : Sound w l) {known : ℤ}
    (he : e = 0 ∨ (0 < e ∧ e ∈ w.asked k)) : Quietly w l (l.applyGet k known e).1 := by
  unfold Limiter.applyGet
  cases hk : l.windows k with
  | none =>
    have hfresh : ∀ k' j', l.windows k' = some j' → j' ≠ l.nextPtr := fun k' j' hk' =>
      ne_of_lt (hs.mapped k' j' hk').2
    have hkey : ∀ k' j', l.windows k' = some j' → k' ≠ k := by
      rintro k' j' hk' rfl
      rw [hk] at hk'
      cases hk'
    refine ⟨⟨⟨?_, ?_⟩, ?_, ?_⟩, ?_, ?_⟩
    · intro k' j' hk'
      by_cases hc : k' = k
      · subst hc
        dsimp only at hk' ⊢
        rw [update_self] at hk'
        injection hk' with hk'
        subst hk'
        rw [update_self]
        exact ⟨rfl, Nat.lt_succ_self _⟩
      · dsimp only at hk' ⊢
        rw [update_of_ne hc] at hk'
        rw [update_of_ne (hfresh k' j' hk')]
        exact ⟨(hs.mapped k' j' hk').1, Nat.lt_succ_of_lt (hs.mapped k' j' hk').2⟩
    · intro j' hj'
      by_cases hc : j' = l.nextPtr
      · subst hc
        dsimp only
        rw [update_self]
        refine ⟨?_, le_refl _, le_refl _, fun h => absurd rfl h, fun h => ?_⟩
        · rcases he with rfl | ⟨h, _⟩
          · exact le_refl _
          · exact le_of_lt h
        · exact (he.resolve_left h).2
      · dsimp only
        rw [update_of_ne hc]
        exact hs.states j' (lt_of_le_of_ne (Nat.lt_succ_iff.mp hj') hc)
    · intro j' hj'
      dsimp only
      rw [update_of_ne (ne_of_lt hj')]
      exact ⟨Nat.lt_succ_of_lt hj', rfl, id⟩
    · intro k' j' _ hk' _
      dsimp only
      rw [update_of_ne (hkey k' j' hk')]
      exact hk'
    · intro k'
      by_cases hc : k' = k
      · subst hc
        right
        simp [Limiter.flushOf, hk]
      · left
        simp only [Limiter.flushOf, update_of_ne hc]
        cases hk' : l.windows k' with
        | none => rfl
        | some j' => rw [Option.map_some, Option.map_some, update_of_ne (hfresh k' j' hk')]
    · intro k' _
      have hget : (l.applyGet k known e).1.pendingDelta k' = l.pendingDelta k' :=
        pendingDelta_applyGet fun k j h => (hs.mapped k j h).2
      simpa only [Limiter.applyGet, hk] using hget
  | some j =>
    obtain ⟨hkey, hlt⟩ := hs.mapped k j hk
    have hraise : Quietly w l (l.raise j e) := Quietly.raise hs hlt (hkey.symm ▸ he)
    dsimp only
    split
    · have hst := hraise.states j (hraise.ptr j hlt).1
      exact hraise.trans hs (Quietly.setState hraise.toSound rfl
        ⟨hst.expire_nonneg, hst.flush_nonneg, hst.flush_le, hst.dated, hst.asked⟩ id rfl rfl)
    · exact hraise

theorem applyGet_windows {known : ℤ} :
    (l.applyGet k known e).1.windows k = some (l.applyGet k known e).2 := by
  unfold Limiter.applyGet
  cases hk : l.windows k with
  | none => exact update_self ..
  | some j =>
    dsimp only
    split
    · exact (congrFun (windows_raise (l := l)) k).trans hk
    · exact (congrFun (windows_raise (l := l)) k).trans hk

theorem applyGet_expireAt {known : ℤ} :
    e ≤ ((l.applyGet k known e).1.states (l.applyGet k known e).2).expireAt := by
  unfold Limiter.applyGet
  cases hk : l.windows k with
  | none =>
    dsimp only
    rw [update_self]
  | some j =>
    dsimp only
    split
    · rw [states_setState_self, states_raise]
      exact le_max_right _ _
    · rw [states_raise]
      exact le_max_right _ _

theorem evict_windows {nowUnix : ℤ} :
    (l.evict nowUnix).windows k = some j ↔
      l.windows k = some j ∧ l.evictable nowUnix j = false := by
  dsimp only [Limiter.evict]
  cases hk : l.windows k with
  | none => simp
  | some i =>
    cases hev : l.evictable nowUnix i with
    | true => simp [hev]; rintro rfl; exact hev
    | false => simp [hev]; rintro rfl; exact hev

theorem evict_cases {nowUnix : ℤ} (k : WindowKey) :
    (l.evict nowUnix).windows k = l.windows k ∨ (l.evict nowUnix).windows k = none ∧
      ∃ j, l.windows k = some j ∧ l.evictable nowUnix j = true := by
  dsimp only [Limiter.evict]
  cases l.windows k with
  | none => exact .inl rfl
  | some j =>
    cases hev : l.evictable nowUnix j with
    | false => exact .inl (if_neg (by simp [hev]))
    | true => exact .inr ⟨if_pos hev, j, rfl, hev⟩

theorem evictable_idle {nowUnix : ℤ} (h : l.evictable nowUnix j = true) :
    (l.states j).localDelta = 0 ∧ (l.states j).flushDelta = 0 ∧
      ((l.states j).expireAt = 0 ∨ (l.states j).expireAt ≤ nowUnix) := by
  simpa [Limiter.evictable, and_assoc] using h

theorem pendingDelta_evict {nowUnix : ℤ} : (l.evict nowUnix).pendingDelta k = l.pendingDelta k := by
  rcases evict_cases k with heq | ⟨hnone, j, hk, hc⟩
  · rw [Limiter.pendingDelta, heq]; rfl
  · rw [Limiter.pendingDelta, Limiter.pendingDelta, hnone, hk]
    exact (evictable_idle hc).1.symm

theorem Quietly.evict (hs : Sound w l) {nowUnix : ℤ} (hnow : nowUnix ≤ w.clock) :
    Quietly w l (l.evict nowUnix) := by
  refine ⟨⟨⟨?_, hs.states⟩, fun j hj => ⟨hj, rfl, id⟩, ?_⟩, ?_, ?_⟩
  · intro k j hk
    exact hs.mapped k j (evict_windows.mp hk).1
  · intro k j hf hk hd
    refine evict_windows.mpr ⟨hk, ?_⟩
    cases hc : l.evictable nowUnix j with
    | false => rfl
    | true =>
      obtain ⟨hkey, hlt⟩ := hs.mapped k j hk
      have hreached := (evictable_idle hc).2.2.resolve_left hd
      have hlater := hf _ (hkey ▸ (hs.states j hlt).asked hd)
      exact absurd (lt_of_le_of_lt hnow hlater) (not_lt.mpr hreached)
  · intro k
    rcases evict_cases k with heq | ⟨hnone, j, hk, hc⟩
    · left; rw [Limiter.flushOf, heq]; rfl
    · right
      rw [Limiter.flushOf, Limiter.flushOf, hnone, hk]
      exact ⟨(evictable_idle hc).2.1, rfl⟩
  · exact fun _ _ => pendingDelta_evict

end Quiet

end MiddlewareUtils.WindowCounter
