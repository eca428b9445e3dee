import MiddlewareUtils.Lib.Tally
import MiddlewareUtils.Proofs.BufferedAdmission

/-!
# What Sleep and Close leave in memory

Sleep and the Close that sets `closed` flush and then stop the timer, so a
hit that is in a buffer after that stays there. The watcher counts, when such
a call begins, the hits whose Take has returned; the call owes them. What is
proved is that all hits counted by then are applied, those of Takes still
under way included, so that none of these can stand in for a hit that is
owed. What covers the debt changes as the call goes (`Duty`): before its
flush all hits that were counted do, then what Redis has applied together
with the snapshots still to be sent, and after the flush what Redis has
applied alone.

The step that matters is the first loop of the flush. It turns everything
counted into applied deltas and jobs only if every hit is in a buffer of the
map and no buffer has a snapshot in flight: the loop skips a key whose
`flushDelta` is set, and what was hit since that snapshot is in nobody's job.
`flushesAll` asks for the two where they are used, and `sleepBehindProbe` is a
run in which a probe's EVAL is on its way when Sleep begins.

Conservation is needed here without the clock: `buffered_conservation` has it
for keys no reading has outlived, here it holds for every key as long as hits
land in the map.
-/

namespace MiddlewareUtils.WindowCounter

open Lib Function

/-! ## Conservation while hits land in the map -/

/-- The hit, if the piece is one, lands in the buffer of the map. -/
def Todo.lands (l : Limiter) : Todo → Bool
  | takeHit sl _ cur _ => l.windows sl.currentKey = some cur
  | _ => true

section Conserve

variable {n : ℕ} {w w' : World n} {a : Action n} {i j : Fin n} {redis : Store} {p : ℕ}
  {l l' : Limiter} {inp : Input} {t : Todo} {next : Next} {evs : List (Event n)} {k : WindowKey}

theorem PieceMove.events_limiter (hm : PieceMove i l inp t l' next evs) :
    ∀ e ∈ evs, e.limiter = i := by
  intro e he
  cases hm with
  | takeHit | evalAcked =>
    cases List.mem_singleton.mp he
    rfl
  | _ => exact absurd he List.not_mem_nil

theorem pendingDelta_nack {k' : WindowKey} : (l.nack k).pendingDelta k' = l.pendingDelta k' := by
  unfold Limiter.nack
  split
  · rfl
  · exact pendingDelta_setState rfl

theorem pendingDelta_hit {c : Ptr} (hs : Sound w l) (hk : l.windows k = some c) (k' : WindowKey) :
    (if k = k' then 1 else 0) + l.pendingDelta k' = (l.hit c).pendingDelta k' := by
  by_cases hc : k = k'
  · subst hc
    have hk' : (l.hit c).windows k = some c := hk
    rw [if_pos rfl, pendingDelta_of_windows hk, pendingDelta_of_windows hk', Limiter.hit,
      states_setState_self]
    exact add_comm _ _
  · have hne : l.windows k' ≠ some c := fun hk' =>
      hc ((hs.mapped k c hk).1.symm.trans (hs.mapped k' c hk').1)
    rw [if_neg hc, zero_add]
    exact (pendingDelta_setState_of_ne hne).symm

theorem pendingDelta_ack {c : Ptr} (hs : Sound w l) (hk : l.windows k = some c) (v delta : ℤ)
    (now : ℕ) (k' : WindowKey) :
    l.pendingDelta k' = (if k = k' then delta else 0) + (l.ack k v delta now).pendingDelta k' := by
  have hack : (l.ack k v delta now).pendingDelta k' = (l.setState c { l.states c with
      redisKnown := v
      localDelta := (l.states c).localDelta - delta
      flushDelta := 0 }).pendingDelta k' := by
    unfold Limiter.ack
    rw [hk]
    rfl
  rw [hack]
  by_cases hc : k = k'
  · subst hc
    rw [if_pos rfl, pendingDelta_of_windows hk,
      pendingDelta_of_windows (l := l.setState c _) hk, states_setState_self]
    dsimp only
    omega
  · have hne : l.windows k' ≠ some c := fun hk' =>
      hc ((hs.mapped k c hk).1.symm.trans (hs.mapped k' c hk').1)
    rw [if_neg hc, zero_add, pendingDelta_setState_of_ne hne]

theorem PieceMove.conserves (h : LedgerInv redis w) (hp : w.procs p = some ⟨i, .held t⟩)
    (hm : PieceMove i (w.limiters i) inp t l' next evs)
    (hland : t.lands (w.limiters i) = true) (k : WindowKey) :
    (evs.map (Event.hits i k)).sum + (w.limiters i).pendingDelta k =
      (evs.map (Event.acks i k)).sum + l'.pendingDelta k := by
  have hs := h.sound i
  have hptr : ∀ k j, (w.limiters i).windows k = some j → j < (w.limiters i).nextPtr :=
    fun k j hk => (hs.mapped k j hk).2
  have hget : ∀ {k' : WindowKey} {known e : ℤ},
      ((w.limiters i).contacted inp.now |>.applyGet k' known e).1.pendingDelta k =
        (w.limiters i).pendingDelta k :=
    fun {_ _ _} => pendingDelta_applyGet (l := (w.limiters i).contacted inp.now) hptr
  have hquiet : ∀ {l'' : Limiter}, l''.pendingDelta k = (w.limiters i).pendingDelta k →
      (([] : List (Event n)).map (Event.hits i k)).sum + (w.limiters i).pendingDelta k =
        (([] : List (Event n)).map (Event.acks i k)).sum + l''.pendingDelta k :=
    fun heq => congrArg (0 + ·) heq.symm
  cases hm with
  | takeRefresh | takeBuffered | peekBuffered => exact hquiet pendingDelta_raise
  | takeSeed | takePrevSeed | peekSeed => exact hquiet hget
  | peekPrevSeed hr => exact hquiet (hr ▸ hget)
  | @takeHit sl cur limit previous ans =>
    have hk : (w.limiters i).windows sl.currentKey = some cur := of_decide_eq_true hland
    have hhit := pendingDelta_hit hs hk k
    simpa [Event.hits, Event.acks] using hhit
  | flushStart => exact hquiet pendingDelta_snapshot
  | evalFailed => exact hquiet pendingDelta_nack
  | @evalAcked f job rest v =>
    obtain ⟨c, hk, _⟩ := h.owner hp
    have hack := pendingDelta_ack hs hk v job.delta inp.now k
    simpa [Event.hits, Event.acks] using hack
  | evict => exact hquiet (sameBuffers_storeErr.pendingDelta.trans pendingDelta_evict)
  | probeFailed => exact hquiet sameBuffers_storeErr.pendingDelta
  | wakeStarts =>
    refine hquiet ?_
    unfold Limiter.startFlush
    split <;> rfl
  | _ => exact hquiet rfl

theorem Moved.log_cases (hm : Moved w a w') :
    (w'.log = w.log ∧ ∀ i, Untouched (w.limiters i) (w'.limiters i)) ∨
    (∃ p inp j t l next evs, w.procs p = some ⟨j, .held t⟩ ∧ a = .run p inp ∧
      PieceMove j (w.limiters j) inp t l next evs ∧ w'.log = w.log ++ evs ∧
      w'.limiters j = next.unlock l ∧ ∀ i, i ≠ j → w'.limiters i = w.limiters i) ∨
    ∃ p j f job rest, w.procs p = some ⟨j, .evaling f job rest⟩ ∧ a = .eval p none ∧
      w'.log = w.log ++ [Event.applied j job.key job.delta] ∧ w'.limiters = w.limiters := by
  cases hm with
  | piece hp hpm =>
    exact .inr (Or.inl ⟨_, _, _, _, _, _, _, hp, rfl, hpm, rfl, update_self ..,
      fun _ hi => update_of_ne hi ..⟩)
  | evaled hp => exact .inr (Or.inr ⟨_, _, _, _, _, hp, rfl, rfl, rfl⟩)
  | acquired | tickDone | stopDone | stopInTime | fired =>
    refine .inl ⟨rfl, fun i => Moved.untouched_setLimiter ?_ i⟩
    exact ⟨rfl, rfl, rfl, rfl, rfl, rfl⟩
  | _ => exact .inl ⟨rfl, fun _ => Moved.untouched_refl _⟩

theorem World.hits_append (hlog : w'.log = w.log ++ evs) :
    w'.hits i k = w.hits i k + (evs.map (Event.hits i k)).sum := by
  rw [World.hits, hlog, List.map_append, List.sum_append]
  rfl

theorem World.acked_append (hlog : w'.log = w.log ++ evs) :
    w'.acked i k = w.acked i k + (evs.map (Event.acks i k)).sum := by
  rw [World.acked, hlog, List.map_append, List.sum_append]
  rfl

theorem World.applied_append (hlog : w'.log = w.log ++ evs) :
    w'.applied i k = w.applied i k + (evs.map (Event.applies i k)).sum := by
  rw [World.applied, hlog, List.map_append, List.sum_append]
  rfl

/-- Every hit of limiter `i` on `k` is acknowledged or in the buffer of the map. -/
def World.Conserved (w : World n) (i : Fin n) : Prop :=
  ∀ k, w.hits i k = w.acked i k + (w.limiters i).pendingDelta k

theorem World.Conserved.step (hc : w.Conserved i) (h : LedgerInv redis w) (hm : Moved w a w')
    (hland : ∀ p inp t, a = .run p inp → w.procs p = some ⟨i, .held t⟩ →
      t.lands (w.limiters i) = true) : w'.Conserved i := by
  intro k
  have hold := hc k
  rcases hm.log_cases with ⟨hlog, huntouched⟩ |
    ⟨p, inp, j, t, l, next, evs, hp, ha, hpm, hlog, hl, hother⟩ |
    ⟨p, j, f, job, rest, hp, ha, hlog, hl⟩
  · have hu := huntouched i
    rw [World.hits, World.acked, hlog, Limiter.pendingDelta, hu.windows, hu.states]
    exact hold
  · rw [World.hits_append hlog, World.acked_append hlog]
    by_cases hi : i = j
    · subst hi
      have hpiece := hpm.conserves h hp (hland p inp t ha hp) k
      rw [hl, Next.unlock_same.pendingDelta]
      omega
    · have hne : ∀ e ∈ evs, e.limiter ≠ i := fun e he hc =>
        hi (hc.symm.trans (hpm.events_limiter e he))
      rw [hother i hi, Event.sum_of_ne fun e he => Event.hits_of_ne (hne e he),
        Event.sum_of_ne fun e he => Event.acks_of_ne (hne e he)]
      omega
  · rw [World.hits_append hlog, World.acked_append hlog, hl]
    simpa [Event.hits, Event.acks] using hold

theorem World.hits_mono (hm : Moved w a w') : w.hits i k ≤ w'.hits i k := by
  have hnonneg : ∀ e : Event n, 0 ≤ e.hits i k := by
    intro e
    cases e with
    | hit i' k' allowed =>
      show 0 ≤ if _ then (1 : ℤ) else 0
      split <;> omega
    | _ => exact le_refl _
  have happend : ∀ {evs : List (Event n)}, w'.log = w.log ++ evs → w.hits i k ≤ w'.hits i k := by
    intro evs hlog
    rw [World.hits_append hlog]
    have hsum : 0 ≤ (evs.map (Event.hits i k)).sum :=
      List.sum_nonneg fun x hx => by
        obtain ⟨e, _, rfl⟩ := List.mem_map.mp hx
        exact hnonneg e
    omega
  rcases hm.log_cases with ⟨hlog, _⟩ | ⟨_, _, _, _, _, _, _, _, _, _, hlog, _⟩ |
    ⟨_, _, _, _, _, _, _, hlog, _⟩
  · exact happend (hlog.trans (List.append_nil _).symm)
  · exact happend hlog
  · exact happend hlog

theorem World.applied_step (hm : Moved w a w') :
    w'.applied i k = w.applied i k ∨ ∃ p f job rest, w.procs p = some ⟨i, .evaling f job rest⟩ ∧
      a = .eval p none ∧ job.key = k ∧ w'.applied i k = w.applied i k + job.delta := by
  rcases hm.log_cases with ⟨hlog, _⟩ | ⟨p, inp, j, t, l, next, evs, hp, _, hpm, hlog, _⟩ |
    ⟨p, j, f, job, rest, hp, ha, hlog, _⟩
  · left
    rw [World.applied, hlog]
    rfl
  · left
    have hzero : ∀ e ∈ evs, e.applies i k = 0 := by
      intro e he
      cases hpm with
      | takeHit | evalAcked => cases List.mem_singleton.mp he; rfl
      | _ => exact absurd he List.not_mem_nil
    rw [World.applied_append hlog, Event.sum_of_ne hzero, add_zero]
  · rw [World.applied_append hlog]
    by_cases hc : j = i ∧ job.key = k
    · obtain ⟨rfl, rfl⟩ := hc
      exact .inr ⟨p, f, job, rest, hp, ha, rfl, by simp [Event.applies]⟩
    · left
      simp [Event.applies, hc]

theorem World.applied_mono (h : LedgerInv redis w) (hm : Moved w a w') :
    w.applied i k ≤ w'.applied i k := by
  rcases World.applied_step (i := i) (k := k) hm with hsame | ⟨p, f, job, rest, hp, _, _, happ⟩
  · exact hsame.ge
  · have hpos := ((h.procs p i _ hp).jobs job List.mem_cons_self).1
    omega

end Conserve

/-! ## The watched machine -/

/-- What a Sleep, or a Close that sets `closed`, found when it began: the hits
whose Take had returned, and all hits that had been counted. -/
structure Debt where
  returned : ℕ
  counted : ℤ

def Debt.none : Debt := ⟨0, 0⟩

/-- The machine with the hit each Take has counted and the debt of each call. -/
structure Owing (n : ℕ) where
  world : World n
  hitBy : ℕ → Option (Fin n × WindowKey)
  owed : ℕ → WindowKey → Debt

namespace Owing

variable {n : ℕ}

def init (redis : Store) (limiters : Fin n → Limiter) : Owing n :=
  ⟨World.init redis limiters, fun _ => none, fun _ _ => .none⟩

def answeredHit (r : Fin n × WindowKey) :
    Option (Proc n) × Option (Fin n × WindowKey) → ℕ
  | (some ⟨_, .answered _ _⟩, some r') => if r' = r then 1 else 0
  | _ => 0

def returned (s : Owing n) (i : Fin n) (k : WindowKey) : ℕ :=
  tally (answeredHit (i, k)) (fun p => (s.world.procs p, s.hitBy p)) s.world.next

def noteHit (s : Owing n) : Action n → ℕ → Option (Fin n × WindowKey)
  | .run p _ =>
    match s.world.procs p with
    | some ⟨i, .held (.takeHit sl _ _ _)⟩ => update s.hitBy p (some (i, sl.currentKey))
    | _ => s.hitBy
  | _ => s.hitBy

def debt (s : Owing n) (i : Fin n) (k : WindowKey) : Debt := ⟨s.returned i k, s.world.hits i k⟩

def noteOwed (s : Owing n) : Action n → ℕ → WindowKey → Debt
  | .sleep i | .close i => update s.owed s.world.next (s.debt i)
  | .run p _ =>
    match s.world.procs p with
    | some ⟨i, .held .closeMark⟩ =>
      -- A Close that finds the limiter closed flushes nothing and owes nothing.
      if (s.world.limiters i).closed then update s.owed p (fun _ => .none) else s.owed
    | _ => s.owed
  | _ => s.owed

def step (s : Owing n) (a : Action n) : Option (Owing n) :=
  (s.world.step a).map fun w => ⟨w, s.noteHit a, s.noteOwed a⟩

/-- A hit of limiter `i` lands in the map, and the flush of a Sleep or Close
meets no snapshot in flight. -/
def flushesAll (i : Fin n) (s : Owing n) : Action n → Bool
  | .run p _ =>
    match s.world.procs p with
    | some ⟨j, .held t⟩ => j ≠ i || t.lands (s.world.limiters i) &&
        match t with
        | .flushStart .sleep | .flushStart .close =>
          (s.world.limiters i).mapped.all fun c =>
            ((s.world.limiters i).states c).flushDelta = 0
        | _ => true
    | _ => true
  | _ => true

end Owing

/-! ## What covers the debt -/

/-- How far a Sleep or Close is: its flush is to come, these snapshots are to
be sent, or it is none. -/
inductive Duty where
  | none
  | whole
  | rest (jobs : List Job)

def FlushCaller.duty (jobs : List Job) : FlushCaller → Duty
  | sleep | close => .rest jobs
  | _ => .none

def Todo.duty : Todo → Duty
  | closeMark | flushStart .sleep | flushStart .close => .whole
  | flushNext f jobs => f.caller.duty jobs
  | evalApply f _ rest _ => f.caller.duty rest
  | evict f => f.caller.duty []
  | stopMark | stopClear => .rest []
  | _ => .none

def Pc.duty : Pc → Duty
  | lock t | held t => t.duty
  | evaling f job rest => f.caller.duty (job :: rest)
  | stopTimer _ | stopDone | stopWait | finished => .rest []
  | _ => .none

def unsent (k : WindowKey) (jobs : List Job) : ℤ :=
  (jobs.map fun job => if job.key = k then job.delta else 0).sum

def World.cover {n : ℕ} (w : World n) (i : Fin n) (k : WindowKey) : Duty → ℤ
  | .none => 0
  | .whole => w.hits i k
  | .rest jobs => w.applied i k + unsent k jobs

section Cover

variable {n : ℕ} {w w' : World n} {a : Action n} {i : Fin n} {redis : Store} {p : ℕ}
  {l' : Limiter} {inp : Input} {t : Todo} {next : Next} {evs : List (Event n)} {k : WindowKey}

theorem World.cover_mono (h : LedgerInv redis w) (hm : Moved w a w') (d : Duty) :
    w.cover i k d ≤ w'.cover i k d := by
  cases d with
  | none => exact le_refl _
  | whole => exact World.hits_mono hm
  | rest jobs =>
    exact Int.add_le_add_right (World.applied_mono h hm) _

theorem unsent_pending {l : Limiter} {order : List Ptr} (hs : Sound w l)
    (horder : order.isPerm l.pending = true)
    (hclean : l.mapped.all (fun c => (l.states c).flushDelta = 0) = true) :
    l.pendingDelta k ≤ unsent k (order.map fun c =>
      ⟨(l.states c).key, (l.states c).localDelta, (l.states c).expireAt⟩) := by
  have hmem : ∀ c, c ∈ order ↔ c ∈ l.pending := fun c => (List.isPerm_iff.mp horder).mem_iff
  have hnonneg : ∀ x ∈ (order.map fun c => (⟨(l.states c).key, (l.states c).localDelta,
      (l.states c).expireAt⟩ : Job)).map (fun job => if job.key = k then job.delta else 0),
      0 ≤ x := by
    intro x hx
    obtain ⟨job, hjob, rfl⟩ := List.mem_map.mp hx
    obtain ⟨c, hc, rfl⟩ := List.mem_map.mp hjob
    have hpos := (mem_pending.mp ((hmem c).mp hc)).2.1
    dsimp only
    split <;> omega
  by_cases hzero : l.pendingDelta k = 0
  · rw [hzero]
    exact List.sum_nonneg hnonneg
  · cases hk : l.windows k with
    | none => exact absurd (by rw [Limiter.pendingDelta, hk]) hzero
    | some c =>
      obtain ⟨hkey, hlt⟩ := hs.mapped k c hk
      have hst := hs.states c hlt
      rw [pendingDelta_of_windows hk] at hzero ⊢
      have hmapped : c ∈ l.mapped :=
        List.mem_filter.mpr ⟨List.mem_range.mpr hlt, by rw [hkey, hk]; exact decide_eq_true rfl⟩
      have hrest : (l.states c).flushDelta = 0 :=
        of_decide_eq_true (List.all_eq_true.mp hclean c hmapped)
      have hpending : c ∈ order := by
        have hle := hst.flush_le
        exact (hmem c).mpr (mem_pending.mpr ⟨⟨hlt, by rw [hkey, hk]⟩, by omega, hrest⟩)
      refine List.single_le_sum hnonneg _ (List.mem_map.mpr ⟨_, List.mem_map.mpr
        ⟨c, hpending, rfl⟩, ?_⟩)
      dsimp only
      rw [if_pos hkey]

theorem LedgerInv.flush_covers (h : LedgerInv redis w) (hc : w.Conserved i)
    (horder : inp.order.isPerm (w.limiters i).pending = true)
    (hclean : (w.limiters i).mapped.all
      (fun c => ((w.limiters i).states c).flushDelta = 0) = true) :
    w.hits i k ≤ w.applied i k + unsent k (inp.order.map fun c =>
      ⟨((w.limiters i).states c).key, ((w.limiters i).states c).localDelta,
        ((w.limiters i).states c).expireAt⟩) := by
  have hs := h.sound i
  have hidle : ∀ q, ¬ Flushes (w.procs q) (i, k) := by
    intro q hq
    obtain ⟨d, hd, hfl⟩ := h.flush_pos hq
    obtain ⟨c, hk, hflush⟩ := Option.map_eq_some_iff.mp
      (show ((w.limiters i).windows k).map _ = some d from hfl)
    obtain ⟨hkey, hlt⟩ := hs.mapped k c hk
    have hmapped : c ∈ (w.limiters i).mapped :=
      List.mem_filter.mpr ⟨List.mem_range.mpr hlt, by rw [hkey, hk]; exact decide_eq_true rfl⟩
    have hrest := of_decide_eq_true (List.all_eq_true.mp hclean c hmapped)
    have hflush : ((w.limiters i).states c).flushDelta = d := hflush
    omega
  have heven : w.applied i k = w.acked i k := (h.owned.rests (i, k) hidle).2
  have hcons := hc k
  have hpend := unsent_pending (k := k) hs horder hclean
  omega

theorem World.cover_evaled {f : Flush} {job : Job} {rest : List Job} {reply : Reply}
    (hm : Moved w (.eval p none) w') (hp : w.procs p = some ⟨i, .evaling f job rest⟩) :
    w.cover i k (Pc.evaling f job rest).duty ≤
      w'.cover i k (Pc.lock (.evalApply f job rest reply)).duty := by
  have happlied : w'.applied i k = w.applied i k + if job.key = k then job.delta else 0 := by
    cases hm with
    | evaled hp' =>
      cases hp.symm.trans hp'
      rw [World.applied_append rfl]
      simp [Event.applies]
  have hcons : unsent k (job :: rest) = (if job.key = k then job.delta else 0) + unsent k rest :=
    List.sum_cons
  simp only [Pc.duty, Todo.duty]
  cases f.caller with
  | sleep | close =>
    show w.applied i k + unsent k (job :: rest) ≤ w'.applied i k + unsent k rest
    omega
  | probe | tick => exact le_refl _

theorem afterFlush_duty (f : Flush) : (afterFlush f).pc.duty = f.caller.duty [] := by
  unfold afterFlush
  cases f.caller <;> rfl

theorem PieceMove.duty (hm : PieceMove i (w.limiters i) inp t l' next evs) :
    next.pc.duty = t.duty ∨
    (t = .flushStart .sleep ∨ t = .flushStart .close) ∧
      inp.order.isPerm (w.limiters i).pending = true ∧
      next.pc.duty = .rest (inp.order.map fun c => ⟨((w.limiters i).states c).key,
        ((w.limiters i).states c).localDelta, ((w.limiters i).states c).expireAt⟩) ∨
    next.pc.duty = .rest [] ∧
      (t.duty = .none ∨ t = .closeMark ∧ (w.limiters i).closed = true) := by
  cases hm with
  | @flushStart caller horder =>
    cases caller with
    | sleep => exact .inr (Or.inl ⟨Or.inl rfl, horder, rfl⟩)
    | close => exact .inr (Or.inl ⟨Or.inr rfl, horder, rfl⟩)
    | probe | tick => exact .inl rfl
  | evict => exact .inl (afterFlush_duty _)
  | closeTwice hclosed => exact .inr (Or.inr ⟨rfl, Or.inr ⟨rfl, hclosed⟩⟩)
  | wakeStays | wakeStarts | rearm => exact .inr (Or.inr ⟨rfl, Or.inl rfl⟩)
  | _ => exact .inl rfl

end Cover

/-! ## Every run -/

namespace Owing

variable {n : ℕ} {s s' : Owing n} {w' : World n} {a : Action n} {i : Fin n} {redis : Store}
  {p q : ℕ} {k : WindowKey} {pc pc' : Pc}

def isHit (r : Fin n × WindowKey) (x : Option (Fin n × WindowKey)) : ℕ :=
  if x = some r then 1 else 0

structure Inv (redis : Store) (i : Fin n) (s : Owing n) : Prop where
  ledger : LedgerInv redis s.world
  conserved : s.world.Conserved i
  nonneg : ∀ k, 0 ≤ s.world.applied i k
  hits : ∀ k, (tally (isHit (i, k)) s.hitBy s.world.next : ℤ) = s.world.hits i k
  unborn : ∀ p, s.world.next ≤ p → s.hitBy p = none ∧ ∀ k, s.owed p k = .none
  once : ∀ p j pc, s.world.procs p = some ⟨j, pc⟩ → pc.take.isSome → s.hitBy p = none
  within : ∀ q pc, s.world.procs q = some ⟨i, pc⟩ →
    ∀ k, ((s.owed q k).returned : ℤ) ≤ (s.owed q k).counted
  covered : ∀ q pc, s.world.procs q = some ⟨i, pc⟩ →
    ∀ k, (s.owed q k).counted ≤ s.world.cover i k pc.duty

theorem answeredHit_le (r : Fin n × WindowKey) (x : Option (Proc n))
    (y : Option (Fin n × WindowKey)) : answeredHit r (x, y) ≤ isHit r y := by
  unfold answeredHit
  split
  next heq =>
    cases heq
    simp [isHit]
  · exact Nat.zero_le _

theorem returned_le (h : s.Inv redis i) (k : WindowKey) :
    (s.returned i k : ℤ) ≤ s.world.hits i k := by
  have hle : s.returned i k ≤ tally (isHit (i, k)) s.hitBy s.world.next := by
    unfold returned tally
    exact Finset.sum_le_sum fun p _ => answeredHit_le _ _ _
  rw [← h.hits k]
  exact Int.ofNat_le.mpr hle

theorem noteOwed_run {inp : Input} : s.noteOwed (.run p inp) = s.owed ∨
    s.noteOwed (.run p inp) = update s.owed p (fun _ => .none) := by
  simp only [noteOwed]
  split
  · split
    · exact .inr rfl
    · exact .inl rfl
  · exact .inl rfl

theorem noteOwed_cases (hm : Moved s.world a w') (hq : q ≠ s.world.next ∨ w'.next ≤ q) :
    s.noteOwed a q k = s.owed q k ∨ s.noteOwed a q k = .none := by
  cases a with
  | sleep i | close i =>
    have hne : q ≠ s.world.next := by
      rcases hq with hq | hq
      · exact hq
      · cases hm
        exact (Nat.lt_of_succ_le hq).ne'
    exact .inl (congrFun (update_of_ne hne ..) k)
  | run p inp =>
    rcases s.noteOwed_run with hsame | hreset
    · rw [hsame]
      exact .inl rfl
    · rw [hreset]
      by_cases hqp : q = p
      · subst hqp
        rw [update_self]
        exact .inr rfl
      · rw [update_of_ne hqp]
        exact .inl rfl
  | _ => exact .inl rfl

theorem noteOwed_closeTwice {inp : Input} (hp : s.world.procs p = some ⟨i, .held .closeMark⟩)
    (hclosed : (s.world.limiters i).closed = true) : s.noteOwed (.run p inp) p k = .none := by
  simp only [noteOwed, hp, hclosed, if_true, update_self]

theorem noteHit_cases (hm : Moved s.world a w') :
    (s.noteHit a = s.hitBy ∧ ∀ i k, w'.hits i k = s.world.hits i k) ∨
    ∃ p inp j sl limit cur previous,
      s.world.procs p = some ⟨j, .held (.takeHit sl limit cur previous)⟩ ∧ a = .run p inp ∧
      s.noteHit a = update s.hitBy p (some (j, sl.currentKey)) ∧
      w'.next = s.world.next ∧ (∃ ans, w'.procs p = some ⟨j, .held (.outage ans)⟩) ∧
      ∀ i k, w'.hits i k = s.world.hits i k + if (j, sl.currentKey) = (i, k) then 1 else 0 := by
  have hsame : w'.log = s.world.log → ∀ i k, w'.hits i k = s.world.hits i k := by
    intro hlog i k
    rw [World.hits, hlog]
    rfl
  cases hm with
  | @piece p inp j t l next evs hp hpm =>
    have hcount : ∀ i k, (s.world.afterPiece p j inp.now l next evs).hits i k =
        s.world.hits i k + (evs.map (Event.hits i k)).sum := fun i k => World.hits_append rfl
    cases hpm with
    | @takeHit sl cur limit previous ans =>
      refine .inr ⟨p, inp, j, sl, limit, cur, previous, hp, rfl, ?_, rfl,
        ⟨ans, update_self ..⟩, fun i k => ?_⟩
      · simp only [noteHit, hp]
      · rw [hcount i k]
        simp [Event.hits, Prod.mk.injEq]
    | evalAcked =>
      refine .inl ⟨by simp only [noteHit, hp], fun i k => ?_⟩
      rw [hcount i k]
      simp [Event.hits]
    | _ => exact .inl ⟨by simp only [noteHit, hp], hsame (List.append_nil _)⟩
  | evaled hp =>
    refine .inl ⟨rfl, fun i k => ?_⟩
    rw [World.hits_append rfl]
    simp [Event.hits]
  | acquired hp | tickDone hp | stopInTime hp | stopLate hp | stopDone hp | stopWaited hp =>
    exact .inl ⟨by simp only [noteHit, hp], hsame rfl⟩
  | _ => exact .inl ⟨rfl, hsame rfl⟩

theorem take_from {w : World n} {j : Fin n} (hm : Moved w a w') (hp : w'.procs p = some ⟨j, pc⟩)
    (ht : pc.take.isSome) : p = w.next ∨ ∃ old, w.procs p = some ⟨j, old⟩ ∧ old.take.isSome := by
  rcases hm.proc hp with hold | ⟨hnew, _⟩ | ⟨old, hold, hmove⟩
  · exact .inr ⟨pc, hold, ht⟩
  · exact .inl hnew
  · refine .inr ⟨old, hold, ?_⟩
    cases hmove with
    | acquired => exact ht
    | piece hpm =>
      obtain ⟨x, hx⟩ := Option.isSome_iff_exists.mp ht
      exact Option.isSome_iff_exists.mpr ⟨x, hpm.carries.take x hx⟩
    | @gotError g e => cases g <;> exact ht
    | @got g => cases g <;> exact ht
    | _ => exact nomatch ht

namespace Inv

theorem step_hits (h : s.Inv redis i) (hm : Moved s.world a w') (k : WindowKey) :
    (tally (isHit (i, k)) (s.noteHit a) w'.next : ℤ) = w'.hits i k := by
  have hold := h.hits k
  rcases noteHit_cases hm with ⟨hnote, hhits⟩ |
    ⟨p, inp, j, sl, limit, cur, previous, hp, _, hnote, hnext, _, hhits⟩
  · rw [hnote, hhits]
    rcases hm.next_cases with hnext | hnext
    · rw [hnext]
      exact hold
    · rw [hnext, tally_succ, (h.unborn _ (le_refl _)).1]
      exact hold
  · have hlt : p < s.world.next := by
      by_contra hge
      exact nomatch (h.ledger.unborn p (not_lt.mp hge)).symm.trans hp
    have htally : tally (isHit (i, k)) (update s.hitBy p (some (j, sl.currentKey)))
        s.world.next + isHit (i, k) (s.hitBy p) = tally (isHit (i, k)) s.hitBy s.world.next +
          isHit (i, k) (some (j, sl.currentKey)) := tally_update hlt
    have hnone : isHit (i, k) (s.hitBy p) = 0 := by
      rw [h.once p j _ hp rfl]
      rfl
    rw [hnote, hnext, hhits]
    by_cases hc : (j, sl.currentKey) = (i, k)
    · have hone : isHit (i, k) (some (j, sl.currentKey)) = 1 := if_pos (congrArg some hc)
      rw [if_pos hc]
      omega
    · have hzero : isHit (i, k) (some (j, sl.currentKey)) = 0 :=
        if_neg fun hsome => hc (Option.some.inj hsome)
      rw [if_neg hc]
      omega

theorem step_unborn (h : s.Inv redis i) (hm : Moved s.world a w') (hp : w'.next ≤ p) :
    s.noteHit a p = none ∧ ∀ k, s.noteOwed a p k = .none := by
  have hle : s.world.next ≤ p := by
    rcases hm.next_cases with hnext | hnext <;> omega
  obtain ⟨hhit, howed⟩ := h.unborn p hle
  refine ⟨?_, fun k => ?_⟩
  · rcases noteHit_cases hm with ⟨hnote, _⟩ | ⟨q, _, _, _, _, _, _, hq, _, hnote, _⟩
    · rw [hnote]
      exact hhit
    · have hne : p ≠ q := by
        rintro rfl
        exact nomatch (h.ledger.unborn p hle).symm.trans hq
      rw [hnote, update_of_ne hne]
      exact hhit
  · rcases noteOwed_cases (k := k) hm (Or.inr hp) with hsame | hnone
    · exact hsame.trans (howed k)
    · exact hnone

theorem step_once (h : s.Inv redis i) (hm : Moved s.world a w') {j : Fin n}
    (hp : w'.procs p = some ⟨j, pc⟩) (ht : pc.take.isSome) : s.noteHit a p = none := by
  have hold : s.hitBy p = none := by
    rcases take_from hm hp ht with rfl | ⟨old, hold, ht⟩
    · exact (h.unborn _ (le_refl _)).1
    · exact h.once p j old hold ht
  rcases noteHit_cases hm with ⟨hnote, _⟩ | ⟨q, _, _, _, _, _, _, _, _, hnote, _, ⟨ans, hq⟩, _⟩
  · rw [hnote]
    exact hold
  · have hne : p ≠ q := by
      rintro rfl
      cases hp.symm.trans hq
      exact nomatch ht
    rw [hnote, update_of_ne hne]
    exact hold

theorem clean_of_flushesAll {caller : FlushCaller} {inp : Input}
    (hall : s.flushesAll i (.run p inp) = true)
    (hp : s.world.procs p = some ⟨i, .held (.flushStart caller)⟩)
    (hcaller : caller = .sleep ∨ caller = .close) :
    (s.world.limiters i).mapped.all
      (fun c => ((s.world.limiters i).states c).flushDelta = 0) = true := by
  rcases hcaller with rfl | rfl <;> simpa [flushesAll, hp, Todo.lands] using hall

theorem lands_of_flushesAll {t : Todo} {inp : Input} (hall : s.flushesAll i (.run p inp) = true)
    (hp : s.world.procs p = some ⟨i, .held t⟩) : t.lands (s.world.limiters i) = true := by
  simp only [flushesAll, hp, ne_eq, not_true_eq_false, decide_false, Bool.false_or,
    Bool.and_eq_true] at hall
  exact hall.1

theorem ne_next (h : s.Inv redis i) (hq : s.world.procs q = some ⟨i, pc⟩) : q ≠ s.world.next := by
  rintro rfl
  exact nomatch (h.ledger.unborn _ (le_refl _)).symm.trans hq

theorem noteOwed_begin (h : s.Inv redis i) (hb : Begins i a pc) (k : WindowKey) :
    s.noteOwed a s.world.next k = s.debt i k ∧ pc.duty = .whole ∨
      s.noteOwed a s.world.next k = .none ∧ pc.duty = .none := by
  cases hb with
  | sleep | close => exact .inl ⟨congrFun (update_self ..) k, rfl⟩
  | take | peek | wake | fire => exact .inr ⟨(h.unborn _ (le_refl _)).2 k, rfl⟩

theorem step_within (h : s.Inv redis i) (hm : Moved s.world a w')
    (hq : w'.procs q = some ⟨i, pc⟩) (k : WindowKey) :
    ((s.noteOwed a q k).returned : ℤ) ≤ (s.noteOwed a q k).counted := by
  have hold : ∀ {old : Pc}, s.world.procs q = some ⟨i, old⟩ →
      ((s.noteOwed a q k).returned : ℤ) ≤ (s.noteOwed a q k).counted := by
    intro old hold
    rcases noteOwed_cases (k := k) hm (Or.inl (h.ne_next hold)) with hsame | hnone
    · rw [hsame]
      exact h.within q old hold k
    · rw [hnone]
      exact le_refl _
  rcases hm.proc hq with hsame | ⟨rfl, hbegin⟩ | ⟨old, hmoved, _⟩
  · exact hold hsame
  · rcases h.noteOwed_begin hbegin k with ⟨hdebt, _⟩ | ⟨hnone, _⟩
    · rw [hdebt]
      exact returned_le h k
    · rw [hnone]
      exact le_refl _
  · exact hold hmoved

theorem noteOwed_le (h : s.Inv redis i) (hm : Moved s.world a w')
    (hq : s.world.procs q = some ⟨i, pc⟩) (k : WindowKey) :
    (s.noteOwed a q k).counted ≤ s.world.cover i k pc.duty := by
  have hcovered := h.covered q pc hq k
  rcases noteOwed_cases (k := k) hm (Or.inl (h.ne_next hq)) with hsame | hnone
  · rw [hsame]
    exact hcovered
  · rw [hnone]
    exact le_trans (le_trans (Int.natCast_nonneg _) (h.within q pc hq k)) hcovered

theorem applied_nonneg (h : s.Inv redis i) (hm : Moved s.world a w') (k : WindowKey) :
    0 ≤ w'.cover i k (.rest []) := by
  have happlied := le_trans (h.nonneg k) (World.applied_mono h.ledger hm)
  simpa [World.cover, unsent] using happlied

theorem piece_covered (h : s.Inv redis i) {t : Todo} {l : Limiter} {inp : Input} {next : Next}
    {evs : List (Event n)} (hm : Moved s.world (.run q inp) w')
    (hall : s.flushesAll i (.run q inp) = true) (hq : s.world.procs q = some ⟨i, .held t⟩)
    (hpm : PieceMove i (s.world.limiters i) inp t l next evs) (k : WindowKey) :
    (s.noteOwed (.run q inp) q k).counted ≤ w'.cover i k next.pc.duty := by
  have hle : (s.noteOwed (.run q inp) q k).counted ≤ s.world.cover i k t.duty :=
    h.noteOwed_le hm hq k
  rcases hpm.duty with hsame | ⟨ht, horder, hduty⟩ | ⟨hduty, hnone | ⟨rfl, hclosed⟩⟩
  · rw [hsame]
    exact le_trans hle (World.cover_mono h.ledger hm _)
  · rw [hduty]
    refine le_trans ?_ (World.cover_mono h.ledger hm _)
    refine le_trans hle ?_
    rcases ht with rfl | rfl
    · exact h.ledger.flush_covers h.conserved horder (clean_of_flushesAll hall hq (Or.inl rfl))
    · exact h.ledger.flush_covers h.conserved horder (clean_of_flushesAll hall hq (Or.inr rfl))
  · rw [hnone] at hle
    rw [hduty]
    exact le_trans hle (h.applied_nonneg hm k)
  · rw [noteOwed_closeTwice hq hclosed, hduty]
    exact h.applied_nonneg hm k

theorem step_covered (h : s.Inv redis i) (hm : Moved s.world a w') (hup : a.redisUp = true)
    (hall : s.flushesAll i a = true) (hq : w'.procs q = some ⟨i, pc⟩) (k : WindowKey) :
    (s.noteOwed a q k).counted ≤ w'.cover i k pc.duty := by
  have hsame : ∀ {old : Pc}, s.world.procs q = some ⟨i, old⟩ → pc.duty = old.duty →
      (s.noteOwed a q k).counted ≤ w'.cover i k pc.duty := by
    intro old hold hduty
    rw [hduty]
    exact le_trans (h.noteOwed_le hm hold k) (World.cover_mono h.ledger hm _)
  rcases hm.proc hq with hold | ⟨rfl, hbegin⟩ | ⟨old, hold, hmove⟩
  · exact hsame hold rfl
  · rcases h.noteOwed_begin hbegin k with ⟨hdebt, hduty⟩ | ⟨hnone, hduty⟩
    · rw [hdebt, hduty]
      exact World.hits_mono hm
    · rw [hnone, hduty]
      exact le_refl _
  · cases hmove with
    | acquired => exact hsame hold rfl
    | piece hpm => exact h.piece_covered hm hall hold hpm k
    | tickDone => exact le_trans (h.noteOwed_le hm hold k) (h.applied_nonneg hm k)
    | stopInTime | stopLate | stopDone | stopWaited => exact hsame hold rfl
    | gotError | evalError => exact nomatch hup
    | @got g => exact hsame hold (by cases g <;> rfl)
    | @evaled f job rest r hr =>
      exact le_trans (h.noteOwed_le hm hold k) (World.cover_evaled hm hold)

theorem step (h : s.Inv redis i) (hs : s.step a = some s') (hup : a.redisUp = true)
    (hall : s.flushesAll i a = true) : s'.Inv redis i := by
  obtain ⟨w', hw, rfl⟩ := Option.map_eq_some_iff.mp hs
  have hm := Moved.of_step hw
  refine ⟨h.ledger.step hw, h.conserved.step h.ledger hm ?_, fun k => ?_, h.step_hits hm,
    fun p hp => h.step_unborn hm hp, fun p j pc hp ht => h.step_once hm hp ht,
    fun q pc hq k => h.step_within hm hq k, fun q pc hq k => h.step_covered hm hup hall hq k⟩
  · rintro p inp t rfl hp
    exact lands_of_flushesAll hall hp
  · exact le_trans (h.nonneg k) (World.applied_mono h.ledger hm)

theorem init {limiters : Fin n → Limiter}
    (hnew : ∀ i, ∃ rate, 0 < rate ∧ Limiter.new rate = some (limiters i)) :
    (Owing.init redis limiters).Inv redis i where
  ledger := ledgerInv_init hnew
  conserved := fun k => by
    obtain ⟨rate, _, hl⟩ := hnew i
    show (0 : ℤ) = 0 + (limiters i).pendingDelta k
    rw [Limiter.pendingDelta, (Limiter.new_empty hl).1]
    rfl
  nonneg := fun _ => le_refl _
  hits := fun _ => rfl
  unborn := fun _ _ => ⟨rfl, fun _ => rfl⟩
  once := fun _ _ _ _ _ => rfl
  within := fun _ _ _ _ => le_refl _
  covered := fun _ _ hq => nomatch (show none = some _ from hq)

end Inv

end Owing

/-- When a Sleep, or the Close that set `closed`, has returned, all hits that
had been counted when it began have been applied to Redis, and with them those
whose Take had returned. -/
theorem stop_flushes {n : ℕ} {redis : Store} {limiters : Fin n → Limiter}
    (hnew : ∀ i, ∃ rate, 0 < rate ∧ Limiter.new rate = some (limiters i)) {i : Fin n}
    {acts : List (Action n)} {s : Owing n} (hup : ∀ a ∈ acts, a.redisUp = true)
    (hall : Along Owing.step (fun s a => s.flushesAll i a = true) (.init redis limiters) acts)
    (hrun : run Owing.step (.init redis limiters) acts = some s) {q : ℕ}
    (hq : s.world.procs q = some ⟨i, .finished⟩) (k : WindowKey) :
    ((s.owed q k).returned : ℤ) ≤ (s.owed q k).counted ∧
      (s.owed q k).counted ≤ s.world.applied i k := by
  have hinv : s.Inv redis i := run_inv_along (fun _ _ _ h ha hs => h.step hs ha.2 ha.1)
    (hall.and_forall hup) (.init hnew) hrun
  have hcovered := hinv.covered q _ hq k
  exact ⟨hinv.within q _ hq k, by simpa [World.cover, unsent, Pc.duty] using hcovered⟩

/-- A Take returns and a Sleep sends its hit. -/
def takeThenSleep : List (Action 1) :=
  takeAlone sole 0 ++ .sleep sole :: pieces 1 1 ++ [Action.run 1 ⟨0, [0], none⟩] ++
    pieces 1 1 ++ [Action.eval 1 none] ++ pieces 1 11

theorem stop_flushes_takeThenSleep :
    ∃ s, (∀ a ∈ takeThenSleep, a.redisUp = true) ∧
      Along Owing.step (fun s a => s.flushesAll 0 a = true)
        (.init Store.empty fun _ => everySecond) takeThenSleep ∧
      run Owing.step (.init Store.empty fun _ => everySecond) takeThenSleep = some s ∧
      s.world.procs 1 = some ⟨0, .finished⟩ ∧ (s.owed 1 ⟨"k", 0⟩).returned = 1 ∧
      ∀ k, ((s.owed 1 k).returned : ℤ) ≤ (s.owed 1 k).counted ∧
        (s.owed 1 k).counted ≤ s.world.applied 0 k :=
  ⟨_, by decide +kernel, by decide +kernel, rfl, rfl, by decide +kernel,
    @stop_flushes 1 Store.empty (fun _ => everySecond)
      (fun _ => ⟨1000000000, by decide, (Option.some_get _).symm⟩) 0 takeThenSleep _
      (by decide +kernel) (by decide +kernel) rfl 1 rfl⟩

/-- A Take's probe has its own hit on the way to Redis when a second Take
counts one and returns. -/
def hitBehindProbe : List (Action 1) :=
  .take sole "k" 5 60000000000 0 :: pieces 0 2 ++ [Action.get 0 none] ++ pieces 0 3 ++
    [Action.get 0 none] ++ pieces 0 3 ++ piecesAt 0 1 1000000000 ++
    [Action.run 0 ⟨1000000000, [0], none⟩] ++ piecesAt 0 1 1000000000 ++
  .take sole "k" 5 60000000000 1000000000 :: piecesAt 1 8 1000000000 ++
    [Action.run 1 ⟨1000000000, [], some ⟨"k", 0⟩⟩, .get 1 none] ++ piecesAt 1 2 1000000000

/-- Then a Sleep flushes, stops the timer and returns. -/
def sleepBehindProbe : List (Action 1) :=
  hitBehindProbe ++ .sleep sole :: piecesAt 2 11 1000000000

/-- Sleep has returned and the hit of the Take that returned before it is in no
EVAL. -/
theorem sleep_leaves_hit :
    (∀ a ∈ sleepBehindProbe, a.redisUp = true) ∧
    ∃ s, run Owing.step (.init Store.empty fun _ => everySecond) sleepBehindProbe = some s ∧
      s.world.procs 2 = some ⟨0, .finished⟩ ∧ (s.owed 2 ⟨"k", 0⟩).returned = 1 ∧
      s.world.applied 0 ⟨"k", 0⟩ = 0 ∧ (s.world.limiters 0).timers 0 = .stopped :=
  ⟨by decide +kernel, _, rfl, rfl, by decide +kernel, by decide +kernel, rfl⟩

end MiddlewareUtils.WindowCounter
