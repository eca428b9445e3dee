import MiddlewareUtils.Proofs.BufferedLedger
import MiddlewareUtils.WindowCounter.Moves

/-!
# What a nil error says about Redis

A buffered Take or Peek that returns a nil error leaves
`bufferedOutageErrorLocked` by one of four exits: Redis was heard of within
`sync_rate`, twice over, or the probe GET was answered, or the map of windows
was empty and there was nothing to probe. The first three say what they
should. The last says nothing, and it can be reached: a Peek whose windows
are all buffered asks Redis nothing, and if its clock reaches the expiry of
its window before the probe flush reads it, that flush evicts everything the
limiter knows. `silentPeek` is that run.

Statements about when a call succeeded need a clock for Redis' answers too,
so the machine is watched: every action carries the time it happens at, the
readings are those times, and the watcher notes when each limiter's calls
were answered, how many answers there were when a call began, and until when
a Peek asked its window to be kept. A success reaches `lastRedisOK` only
when the caller has the lock back, so the time noted there may be late; `lag`
bounds by how much.

The proof follows a call through the one critical section in which it asks
Redis nothing. As long as it is in there the window it counts on is in the
map (`Covered`), with a hit pending or with the expiry the Peek asked for, so
an eviction at an earlier reading spares it and the last exit is closed.
-/

namespace MiddlewareUtils.WindowCounter

open Lib Function

/-! ## The watched machine -/

/-- The machine with what each limiter heard from Redis, and when. -/
structure Watched (n : ℕ) where
  world : World n
  time : ℕ
  /-- When GETs and EVALs of each limiter were answered, latest first. -/
  oks : Fin n → List ℕ
  /-- How many answers its limiter had when the call began. -/
  began : ℕ → ℕ
  /-- When the process was last answered. -/
  arrived : ℕ → ℕ
  /-- The expiry a Peek asked for. -/
  peeking : ℕ → Option ℤ

namespace Watched

variable {n : ℕ}

def init (redis : Store) (limiters : Fin n → Limiter) : Watched n where
  world := World.init redis limiters
  time := 0
  oks := fun _ => []
  began := fun _ => 0
  arrived := fun _ => 0
  peeking := fun _ => none

def noteBegin (s : Watched n) (i : Fin n) (key : String) (window : ℤ) (now : ℕ)
    (peeks : Bool) : Watched n :=
  match slidingAt key window now with
  | .error _ => s
  | .ok sl =>
    { s with
      began := update s.began s.world.next (s.oks i).length
      peeking := update s.peeking s.world.next (if peeks then some sl.expireAt else none) }

def noteAnswer (s : Watched n) (p t : ℕ) : Watched n :=
  match s.world.procs p with
  | none => s
  | some q =>
    { s with
      oks := update s.oks q.limiter (t :: s.oks q.limiter)
      arrived := update s.arrived p t }

def note (s : Watched n) (t : ℕ) : Action n → Watched n
  | .take i key _ window now => s.noteBegin i key window now false
  | .peek i key _ window now => s.noteBegin i key window now true
  | .get p none | .eval p none => s.noteAnswer p t
  | _ => s

/-- An action at its time: the clock does not go back, and a reading is the
time it is made at. -/
def step (s : Watched n) (x : ℕ × Action n) : Option (Watched n) :=
  if s.time ≤ x.1 ∧ ∀ r ∈ x.2.reading, r = x.1 then
    (s.world.step x.2).map fun w => { s.note x.1 x.2 with world := w, time := x.1 }
  else none

end Watched

/-! ## Program counters that matter -/

namespace Todo

def succeeded : Todo → Bool
  | takeApply _ _ (.ok _) | takePrevApply _ _ _ (.ok _) | peekApply _ _ (.ok _)
  | peekPrevApply _ _ _ (.ok _) | evalApply _ _ _ (.ok _) | probeApply _ (.ok _) => true
  | _ => false

def inside : Todo → Bool
  | takePrev .. | takeHit .. | peekPrev .. | outage _ | flushStart (.probe _) | flushNext ..
  | evict _ | recheck .. => true
  | _ => false

def probes : Todo → Bool
  | flushStart (.probe _) => true
  | _ => false

def peeks : Todo → Option SlidingWindow
  | peekEnter sl _ => some sl
  | _ => none

end Todo

namespace Pc

def succeeded : Pc → Bool
  | lock t | held t => t.succeeded
  | _ => false

def peeks : Pc → Option SlidingWindow
  | lock t | held t => t.peeks
  | _ => none

def probes : Pc → Bool
  | held t => t.probes
  | _ => false

def stranded : Pc → Bool
  | lock t => t.inside
  | _ => false

end Pc

namespace Limiter

def HasDelta (l : Limiter) : Prop :=
  ∃ k j, l.windows k = some j ∧ (l.states j).localDelta ≠ 0

def Keeps (l : Limiter) (peeking : Option ℤ) : Prop :=
  ∃ k j e, l.windows k = some j ∧ peeking = some e ∧ e ≤ (l.states j).expireAt

def Survives (l : Limiter) (nowUnix : ℤ) : Prop :=
  ∃ k j, l.windows k = some j ∧ l.evictable nowUnix j = false

end Limiter

/-- What is known in the critical section of a call: Redis has answered
during the call, or the window it counts on is in the map. -/
def Covered (during : Prop) (peeking : Option ℤ) (l : Limiter) : Todo → Prop
  | .takePrev sl _ cur | .takeHit sl _ cur _ => during ∨ l.windows sl.currentKey = some cur
  | .peekPrev .. => during ∨ l.Keeps peeking
  | .outage _ | .flushStart (.probe _) => during ∨ l.HasDelta ∨ l.Keeps peeking
  | .flushNext ⟨.probe _, nowUnix, firstErr⟩ _ | .evict ⟨.probe _, nowUnix, firstErr⟩ =>
    during ∨ firstErr.isSome = true ∨ l.Survives nowUnix
  | .recheck _ err => during ∨ err.isSome = true ∨ ∃ k j, l.windows k = some j
  | _ => True

section Pieces

variable {n : ℕ} {me : Fin n} {l l' : Limiter} {inp : Input} {t t' : Todo} {next : Next}
  {evs : List (Event n)} {during during' : Prop} {peeking : Option ℤ} {w : World n}

theorem Covered.of_during (h : during) : Covered during peeking l t := by
  unfold Covered
  split <;> first | exact .inl h | trivial

theorem Covered.of_outside (h : t.inside = false) : Covered during peeking l t := by
  cases t with
  | flushStart caller =>
    cases caller with
    | probe => cases h
    | _ => trivial
  | takePrev | takeHit | peekPrev | outage | flushNext | evict | recheck => cases h
  | _ => trivial

theorem Covered.frame (h : Covered during peeking l t) (hd : during → during')
    (hw : l'.windows = l.windows) (hs : l'.states = l.states) : Covered during' peeking l' t := by
  have hdelta : l.HasDelta → l'.HasDelta := by
    unfold Limiter.HasDelta
    rw [hw, hs]
    exact id
  have hkeeps : l.Keeps peeking → l'.Keeps peeking := by
    unfold Limiter.Keeps
    rw [hw, hs]
    exact id
  have hsurv : ∀ now, l.Survives now → l'.Survives now := by
    intro now
    unfold Limiter.Survives Limiter.evictable
    rw [hw, hs]
    exact id
  unfold Covered at h ⊢
  split at h
  · exact h.imp hd fun h => hw ▸ h
  · exact h.imp hd fun h => hw ▸ h
  · exact h.imp hd hkeeps
  · exact h.imp hd (Or.imp hdelta hkeeps)
  · exact h.imp hd (Or.imp hdelta hkeeps)
  · exact h.imp hd (Or.imp_right (hsurv _))
  · exact h.imp hd (Or.imp_right (hsurv _))
  · exact h.imp hd (Or.imp_right fun h => hw ▸ h)
  · exact h

theorem hasDelta_hit {k : WindowKey} {j : Ptr} (hs : Sound w l) (hk : l.windows k = some j) :
    (l.hit j).HasDelta := by
  have hst := hs.states j (hs.mapped k j hk).2
  have h₁ := hst.flush_nonneg
  have h₂ := hst.flush_le
  refine ⟨k, j, hk, ?_⟩
  rw [Limiter.hit, states_setState_self]
  show (l.states j).localDelta + 1 ≠ 0
  omega

theorem keeps_raise {k : WindowKey} {j : Ptr} {e : ℤ} (hk : l.windows k = some j)
    (hp : peeking = some e) : (l.raise j e).Keeps peeking := by
  refine ⟨k, j, e, (congrFun windows_raise k).trans hk, hp, ?_⟩
  rw [states_raise]
  exact le_max_right _ _

theorem survives_snapshot {now : ℕ} (h : l.HasDelta ∨ l.Keeps peeking)
    (hearly : ∀ e ∈ peeking, unix now < e) : l.snapshot.Survives (unix now) := by
  have hstate : ∀ j, (l.snapshot.states j).localDelta = (l.states j).localDelta ∧
      (l.snapshot.states j).expireAt = (l.states j).expireAt := by
    intro j
    by_cases hj : j ∈ l.pending
    · rw [states_snapshot_of_mem hj]; exact ⟨rfl, rfl⟩
    · rw [states_snapshot_of_not_mem hj]; exact ⟨rfl, rfl⟩
  have hunix : 0 ≤ unix now := Int.natCast_nonneg _
  rcases h with ⟨k, j, hk, hd⟩ | ⟨k, j, e, hk, hp, he⟩
  · refine ⟨k, j, hk, ?_⟩
    rw [Limiter.evictable, (hstate j).1, decide_eq_false hd]
    rfl
  · refine ⟨k, j, hk, ?_⟩
    have hlt := hearly e hp
    have hdated : ¬(l.states j).expireAt = 0 := by omega
    have halive : ¬unix now ≥ (l.states j).expireAt := by omega
    rw [Limiter.evictable, (hstate j).2, decide_eq_false hdated, decide_eq_false halive,
      Bool.or_false, Bool.and_false]

theorem PieceMove.covered (hm : PieceMove me l inp t l' next evs) (hnext : next = .hold t')
    (hs : Sound w l) (hok : t.succeeded = true → during)
    (hpeek : ∀ sl, t.peeks = some sl → peeking = some sl.expireAt)
    (hearly : t.probes = true → ∀ e ∈ peeking, unix inp.now < e)
    (hcov : Covered during peeking l t) : Covered during peeking l' t' := by
  cases hm with
  | takeBuffered hmap => cases hnext; exact .inr ((congrFun windows_raise _).trans hmap)
  | takeSeed | takePrevSeed | peekSeed | peekPrevSeed => exact .of_during (hok rfl)
  | takePrevBuffered => cases hnext; exact hcov
  | takeHit => cases hnext; exact Or.imp_right (fun h => .inl (hasDelta_hit hs h)) hcov
  | peekBuffered hmap => cases hnext; exact .inr (keeps_raise hmap (hpeek _ rfl))
  | peekPrevBuffered => cases hnext; exact Or.imp_right .inr hcov
  | outageProbe => cases hnext; exact hcov
  | @flushStart caller =>
    cases hnext
    cases caller with
    | probe ans =>
      exact Or.imp_right (fun h => .inr (survives_snapshot h (hearly rfl))) hcov
    | _ => trivial
  | @flushLast f =>
    cases hnext
    obtain ⟨caller, nowUnix, firstErr⟩ := f
    cases caller with
    | probe ans => exact hcov
    | _ => trivial
  | @evalFailed f =>
    cases hnext
    obtain ⟨caller, nowUnix, firstErr⟩ := f
    cases caller with
    | probe ans => exact .inr (.inl rfl)
    | _ => trivial
  | evalAcked => exact .of_during (hok rfl)
  | @evict f =>
    obtain ⟨caller, nowUnix, firstErr⟩ := f
    cases caller with
    | probe ans =>
      cases hnext
      refine Or.imp_right (Or.imp_right ?_) hcov
      rintro ⟨k, j, hk, hev⟩
      refine ⟨k, j, ?_⟩
      have hmap := evict_windows.mpr ⟨hk, hev⟩
      cases firstErr <;> exact hmap
    | _ => cases hnext
  | _ => cases hnext

theorem PieceMove.answered_nil {ans : Answer} (hm : PieceMove me l inp t l' next evs)
    (hnext : next = .release (.answered ans none)) (hs : Sound w l)
    (hok : t.succeeded = true → during) (hcov : Covered during peeking l t) :
    during ∨ l.contactedWithinSyncRate inp.now = true := by
  cases hm with
  | outageRecent _ hrecent | recheckRecent _ hrecent => exact .inr hrecent
  | recheckEmpty _ _ hempty =>
    -- the window the call counts on is in the map
    rcases hcov with h | h | ⟨k, j, hk⟩
    · exact .inl h
    · cases h
    · obtain ⟨hkey, hlt⟩ := hs.mapped k j hk
      have hmem : j ∈ l.mapped :=
        List.mem_filter.mpr ⟨List.mem_range.mpr hlt, decide_eq_true (hkey.symm ▸ hk)⟩
      rw [hempty] at hmem
      cases hmem
  | probeAcked => exact .inl (hok rfl)
  | evict =>
    unfold afterFlush at hnext
    split at hnext <;> cases hnext
  | _ => cases hnext

theorem PieceMove.stamps (hm : PieceMove me l inp t l' next evs) :
    l'.lastRedisOK = l.lastRedisOK ∨
      t.succeeded = true ∧ l'.lastRedisOK = some inp.now := by
  have hget : ∀ k v e, ((l.contacted inp.now).applyGet k v e).1.lastRedisOK = some inp.now :=
    fun _ _ _ => SameOutage.applyGet.lastRedisOK
  have hstore : ∀ (l : Limiter) err now, (l.storeErr err now).lastRedisOK = l.lastRedisOK := by
    intro l err now
    cases err <;> rfl
  cases hm with
  | takeRefresh | takeBuffered | peekBuffered => exact .inl SameOutage.raise.lastRedisOK
  | takeSeed | takePrevSeed | peekSeed => exact .inr ⟨rfl, hget _ _ _⟩
  | peekPrevSeed hr => rw [hr]; exact .inr ⟨rfl, hget _ _ _⟩
  | evalFailed => exact .inl SameOutage.nack.lastRedisOK
  | evalAcked =>
    unfold Limiter.ack
    split
    · exact .inl rfl
    · exact .inr ⟨rfl, rfl⟩
  | evict | probeFailed => exact .inl (hstore _ _ _)
  | probeAcked => exact .inr ⟨rfl, rfl⟩
  | wakeStarts => exact .inl SameOutage.startFlush.lastRedisOK
  | _ => exact .inl rfl

theorem PieceMove.pc_facts (hm : PieceMove me l inp t l' next evs) :
    next.pc.succeeded = false ∧ next.pc.peeks = none ∧ next.pc.stranded = false := by
  cases hm with
  | evict =>
    unfold afterFlush
    split <;> exact ⟨rfl, rfl, rfl⟩
  | _ => exact ⟨rfl, rfl, rfl⟩

end Pieces

/-! ## Steps of the watched machine -/

namespace Watched

variable {n : ℕ} {s s' : Watched n} {x : ℕ × Action n}

structure Noted (s s' : Watched n) (x : ℕ × Action n) : Prop where
  reading : ∀ r ∈ x.2.reading, r = x.1
  moved : Moved s.world x.2 s'.world
  oks : s'.oks = (s.note x.1 x.2).oks
  began : s'.began = (s.note x.1 x.2).began
  arrived : s'.arrived = (s.note x.1 x.2).arrived
  peeking : s'.peeking = (s.note x.1 x.2).peeking

theorem Noted.of_step (h : s.step x = some s') : s.Noted s' x := by
  unfold step at h
  split at h
  next hx =>
    obtain ⟨w, hw, rfl⟩ := Option.map_eq_some_iff.mp h
    exact ⟨hx.2, .of_step hw, rfl, rfl, rfl, rfl⟩
  · cases h

theorem noteBegin_old {i : Fin n} {key : String} {window : ℤ} {now : ℕ} {peeks : Bool} {p : ℕ}
    (hp : p ≠ s.world.next) :
    (s.noteBegin i key window now peeks).began p = s.began p ∧
      (s.noteBegin i key window now peeks).peeking p = s.peeking p := by
  unfold noteBegin
  split
  · exact ⟨rfl, rfl⟩
  · exact ⟨update_of_ne hp .., update_of_ne hp ..⟩

theorem noteBegin_answers {i : Fin n} {key : String} {window : ℤ} {now : ℕ} {peeks : Bool} :
    (s.noteBegin i key window now peeks).oks = s.oks ∧
      (s.noteBegin i key window now peeks).arrived = s.arrived := by
  unfold noteBegin
  split <;> exact ⟨rfl, rfl⟩

theorem noteAnswer_begun {p t : ℕ} :
    (s.noteAnswer p t).began = s.began ∧ (s.noteAnswer p t).peeking = s.peeking := by
  unfold noteAnswer
  split <;> exact ⟨rfl, rfl⟩

theorem noteAnswer_suffix {p t : ℕ} (i : Fin n) : s.oks i <:+ (s.noteAnswer p t).oks i := by
  unfold noteAnswer
  split
  · exact List.suffix_rfl
  next q _ =>
    dsimp only
    by_cases hi : i = q.limiter
    · subst hi
      rw [update_self]
      exact List.suffix_cons ..
    · rw [update_of_ne hi]

theorem note_suffix {t : ℕ} {a : Action n} (i : Fin n) : s.oks i <:+ (s.note t a).oks i := by
  unfold note
  split
  · rw [noteBegin_answers.1]
  · rw [noteBegin_answers.1]
  · exact noteAnswer_suffix i
  · exact noteAnswer_suffix i
  · exact List.suffix_rfl

theorem note_old {t : ℕ} {a : Action n} {p : ℕ} (hp : p ≠ s.world.next) :
    (s.note t a).began p = s.began p ∧ (s.note t a).peeking p = s.peeking p := by
  unfold note
  split
  · exact noteBegin_old hp
  · exact noteBegin_old hp
  · rw [noteAnswer_begun.1, noteAnswer_begun.2]; exact ⟨rfl, rfl⟩
  · rw [noteAnswer_begun.1, noteAnswer_begun.2]; exact ⟨rfl, rfl⟩
  · exact ⟨rfl, rfl⟩

theorem note_unborn {t p : ℕ} {a : Action n} {w' : World n} (hm : Moved s.world a w')
    (hp : w'.next ≤ p) : s.world.next ≤ p ∧
      (s.note t a).began p = s.began p ∧ (s.note t a).peeking p = s.peeking p := by
  cases hm with
  | took | peeked =>
    have hp : s.world.next + 1 ≤ p := hp
    exact ⟨by omega, note_old (by omega)⟩
  | takeRefused hsl | peekRefused hsl =>
    refine ⟨hp, ?_⟩
    dsimp only [note]
    unfold noteBegin
    rw [hsl]
    exact ⟨rfl, rfl⟩
  | slept | woken | closing | fired => exact ⟨Nat.le_of_succ_le hp, rfl, rfl⟩
  | got | evaled =>
    refine ⟨hp, ?_⟩
    dsimp only [note]
    rw [noteAnswer_begun.1, noteAnswer_begun.2]
    exact ⟨rfl, rfl⟩
  | _ => exact ⟨hp, rfl, rfl⟩

theorem noteAnswer_self {t p : ℕ} {i : Fin n} {pc : Pc} (hp : s.world.procs p = some ⟨i, pc⟩) :
    (s.noteAnswer p t).arrived p = t ∧ (s.noteAnswer p t).oks i = t :: s.oks i := by
  unfold noteAnswer
  rw [hp]
  exact ⟨update_self .., update_self ..⟩

theorem note_arrived {t p : ℕ} {a : Action n} {w' : World n} {i : Fin n} {pc : Pc}
    (hm : Moved s.world a w') (hp : s.world.procs p = some ⟨i, pc⟩) (hpc : pc.succeeded = true) :
    (s.note t a).arrived p = s.arrived p := by
  have hother : ∀ {q : ℕ} {i' : Fin n} {qc : Pc}, s.world.procs q = some ⟨i', qc⟩ →
      qc.succeeded = false → (s.noteAnswer q t).arrived p = s.arrived p := by
    intro q i' qc hq hqc
    unfold noteAnswer
    rw [hq]
    refine update_of_ne ?_ ..
    rintro rfl
    rw [hp] at hq
    cases hq
    rw [hpc] at hqc
    cases hqc
  cases hm with
  | got hq | evaled hq => exact hother hq rfl
  | takeRefused | took | peekRefused | peeked =>
    exact congrFun noteBegin_answers.2 p
  | _ => rfl

end Watched

theorem Begins.quiet {n : ℕ} {i : Fin n} {a : Action n} {pc : Pc} (h : Begins i a pc) :
    pc.succeeded = false ∧ pc.stranded = false ∧ pc.isHeld = false := by
  cases h <;> exact ⟨rfl, rfl, rfl⟩

/-! ## The invariant of the watcher -/

def Action.runner {n : ℕ} : Action n → Option ℕ
  | .run p _ => some p
  | _ => none

/-- The flush of a Peek's outage check reads the clock before the expiry the
Peek asked for, and a success is noted within `lag` of the answer. -/
def Watched.Timely {n : ℕ} (lag : ℕ) (s : Watched n) (x : ℕ × Action n) : Prop :=
  ∀ p ∈ x.2.runner, ∀ q ∈ s.world.procs p,
    (q.pc.probes = true → ∀ e ∈ s.peeking p, unix x.1 < e) ∧
      (q.pc.succeeded = true → x.1 ≤ s.arrived p + lag)

instance {n : ℕ} (lag : ℕ) (s : Watched n) (x : ℕ × Action n) : Decidable (s.Timely lag x) :=
  inferInstanceAs (Decidable (∀ p ∈ x.2.runner, ∀ q ∈ s.world.procs p,
    (q.pc.probes = true → ∀ e ∈ s.peeking p, unix x.1 < e) ∧
      (q.pc.succeeded = true → x.1 ≤ s.arrived p + lag)))

/-- Redis has answered limiter `i` since process `p` began. -/
def Watched.Reached {n : ℕ} (s : Watched n) (p : ℕ) (i : Fin n) : Prop :=
  s.began p < (s.oks i).length

instance {n : ℕ} (s : Watched n) (p : ℕ) (i : Fin n) : Decidable (s.Reached p i) :=
  inferInstanceAs (Decidable (s.began p < (s.oks i).length))

section Notes

variable {n : ℕ} {s s' : Watched n} {x : ℕ × Action n}

theorem Watched.Noted.suffix (h : s.Noted s' x) (i : Fin n) : s.oks i <:+ s'.oks i := by
  rw [h.oks]
  exact Watched.note_suffix i

theorem Watched.Noted.old {p : ℕ} (h : s.Noted s' x) (hp : p ≠ s.world.next) :
    s'.began p = s.began p ∧ s'.peeking p = s.peeking p := by
  rw [h.began, h.peeking]
  exact Watched.note_old hp

theorem Watched.Noted.reached {p : ℕ} {i : Fin n} (h : s.Noted s' x) (hp : p ≠ s.world.next)
    (hr : s.Reached p i) : s'.Reached p i := by
  rw [Watched.Reached, (h.old hp).1]
  exact lt_of_lt_of_le hr (h.suffix i).length_le

end Notes

structure ContactInv {n : ℕ} (lag : ℕ) (s : Watched n) : Prop where
  unborn : ∀ p, s.world.next ≤ p → s.began p = 0 ∧ s.peeking p = none
  begun : ∀ p i pc, s.world.procs p = some ⟨i, pc⟩ → s.began p ≤ (s.oks i).length
  stamped : ∀ i t, (s.world.limiters i).lastRedisOK = some t → ∃ ok ∈ s.oks i, t ≤ ok + lag
  replied : ∀ p i pc, s.world.procs p = some ⟨i, pc⟩ → pc.succeeded = true →
    s.arrived p ∈ s.oks i ∧ s.Reached p i
  peeks : ∀ p i pc sl, s.world.procs p = some ⟨i, pc⟩ → pc.peeks = some sl →
    s.peeking p = some sl.expireAt
  outside : ∀ p i pc, s.world.procs p = some ⟨i, pc⟩ → pc.stranded = false
  covered : ∀ p i t, s.world.procs p = some ⟨i, .held t⟩ →
    Covered (s.Reached p i) (s.peeking p) (s.world.limiters i) t

theorem contactInv_init {n : ℕ} {lag : ℕ} {redis : Store} {limiters : Fin n → Limiter}
    (hnew : ∀ i, ∃ rate, 0 < rate ∧ Limiter.new rate = some (limiters i)) :
    ContactInv lag (Watched.init redis limiters) := by
  have hnone : ∀ p i pc, (Watched.init redis limiters).world.procs p ≠ some ⟨i, pc⟩ := by
    intro p i pc hp
    cases hp
  refine ⟨fun _ _ => ⟨rfl, rfl⟩, fun p i pc hp => absurd hp (hnone p i pc), ?_,
    fun p i pc hp => absurd hp (hnone p i pc), fun p i pc _ hp => absurd hp (hnone p i pc),
    fun p i pc hp => absurd hp (hnone p i pc), fun p i t hp => absurd hp (hnone p i _)⟩
  intro i t ht
  obtain ⟨rate, _, hrate⟩ := hnew i
  have ht : (limiters i).lastRedisOK = some t := ht
  rw [(Limiter.new_silent hrate).2.2] at ht
  cases ht

namespace ContactInv

variable {n lag : ℕ} {s s' : Watched n} {x : ℕ × Action n} {redis : Store}

theorem born {p : ℕ} {i : Fin n} {pc : Pc} (hled : LedgerInv redis s.world)
    (hp : s.world.procs p = some ⟨i, pc⟩) : p ≠ s.world.next := by
  rintro rfl
  rw [hled.unborn _ (le_refl _)] at hp
  cases hp

theorem step_unborn (h : ContactInv lag s) (hn : s.Noted s' x) (p : ℕ)
    (hp : s'.world.next ≤ p) : s'.began p = 0 ∧ s'.peeking p = none := by
  obtain ⟨hp', hb, hk⟩ := Watched.note_unborn (t := x.1) hn.moved hp
  rw [hn.began, hn.peeking, hb, hk]
  exact h.unborn p hp'

theorem step_begun (h : ContactInv lag s) (hled : LedgerInv redis s.world) (hn : s.Noted s' x)
    {p : ℕ} {i : Fin n} {pc : Pc} (hp : s'.world.procs p = some ⟨i, pc⟩) :
    s'.began p ≤ (s'.oks i).length := by
  have hold : ∀ pc, s.world.procs p = some ⟨i, pc⟩ → s'.began p ≤ (s'.oks i).length := by
    intro pc hp
    rw [(hn.old (born hled hp)).1]
    exact le_trans (h.begun p i pc hp) (hn.suffix i).length_le
  rcases hn.moved.proc hp with hp | ⟨rfl, hbegins⟩ | ⟨old, hp, _⟩
  · exact hold pc hp
  · have hnew : ∀ {key window now peeks}, (s.noteBegin i key window now peeks).began s.world.next ≤
        (s.oks i).length := by
      intro key window now peeks
      unfold Watched.noteBegin
      split
      · rw [(h.unborn _ (le_refl _)).1]
        exact Nat.zero_le _
      · exact le_of_eq (update_self ..)
    obtain ⟨t, a⟩ := x
    rw [hn.began, hn.oks]
    cases hbegins with
    | take | peek =>
      refine le_trans hnew ?_
      dsimp only [Watched.note]
      rw [Watched.noteBegin_answers.1]
    | _ =>
      dsimp only [Watched.note]
      rw [(h.unborn _ (le_refl _)).1]
      exact Nat.zero_le _
  · exact hold old hp

theorem step_replied (h : ContactInv lag s) (hled : LedgerInv redis s.world) (hn : s.Noted s' x)
    {p : ℕ} {i : Fin n} {pc : Pc} (hp : s'.world.procs p = some ⟨i, pc⟩)
    (hpc : pc.succeeded = true) : s'.arrived p ∈ s'.oks i ∧ s'.Reached p i := by
  have hold : ∀ pc, s.world.procs p = some ⟨i, pc⟩ → pc.succeeded = true →
      s'.arrived p ∈ s'.oks i ∧ s'.Reached p i := by
    intro pc hp hpc
    obtain ⟨hmem, hr⟩ := h.replied p i pc hp hpc
    rw [hn.arrived, Watched.note_arrived hn.moved hp hpc]
    exact ⟨(hn.suffix i).subset hmem, hn.reached (born hled hp) hr⟩
  -- an answer of this step is the latest one
  have hnew : ∀ pc, s.world.procs p = some ⟨i, pc⟩ →
      s.note x.1 x.2 = s.noteAnswer p x.1 → s'.arrived p ∈ s'.oks i ∧ s'.Reached p i := by
    intro pc hp hnote
    obtain ⟨harr, hoks⟩ := Watched.noteAnswer_self (t := x.1) hp
    rw [Watched.Reached, (hn.old (born hled hp)).1, hn.arrived, hn.oks, hnote, harr, hoks]
    exact ⟨List.mem_cons_self, Nat.lt_succ_of_le (h.begun p i pc hp)⟩
  rcases hn.moved.proc hp with hwas | ⟨_, hbegins⟩ | ⟨old, hwas, hmove⟩
  · exact hold pc hwas hpc
  · rw [hbegins.quiet.1] at hpc
    cases hpc
  · obtain ⟨t, a⟩ := x
    cases hmove with
    | acquired => exact hold _ hwas hpc
    | piece hpm =>
      rw [hpm.pc_facts.1] at hpc
      cases hpc
    | got | evaled => exact hnew _ hwas rfl
    | @gotError g e => cases g <;> cases hpc
    | _ => cases hpc

theorem step_peeks (h : ContactInv lag s) (hled : LedgerInv redis s.world) (hn : s.Noted s' x)
    {p : ℕ} {i : Fin n} {pc : Pc} {sl : SlidingWindow} (hp : s'.world.procs p = some ⟨i, pc⟩)
    (hpc : pc.peeks = some sl) : s'.peeking p = some sl.expireAt := by
  have hold : ∀ pc, s.world.procs p = some ⟨i, pc⟩ → pc.peeks = some sl →
      s'.peeking p = some sl.expireAt := by
    intro pc hp hpc
    rw [(hn.old (born hled hp)).2]
    exact h.peeks p i pc sl hp hpc
  rcases hn.moved.proc hp with hwas | ⟨rfl, hbegins⟩ | ⟨old, hwas, hmove⟩
  · exact hold pc hwas hpc
  · obtain ⟨t, a⟩ := x
    cases hbegins with
    | peek hsl =>
      cases hpc
      rw [hn.peeking]
      dsimp only [Watched.note]
      unfold Watched.noteBegin
      rw [hsl]
      exact update_self ..
    | _ => cases hpc
  · obtain ⟨t, a⟩ := x
    cases hmove with
    | acquired => exact hold _ hwas hpc
    | piece hpm =>
      rw [hpm.pc_facts.2.1] at hpc
      cases hpc
    | @gotError g e => cases g <;> cases hpc
    | @got g => cases g <;> cases hpc
    | _ => cases hpc

theorem step_outside (h : ContactInv lag s) (hn : s.Noted s' x) {p : ℕ} {i : Fin n} {pc : Pc}
    (hp : s'.world.procs p = some ⟨i, pc⟩) : pc.stranded = false := by
  rcases hn.moved.proc hp with hp | ⟨_, hbegins⟩ | ⟨old, hp, hmove⟩
  · exact h.outside p i pc hp
  · exact hbegins.quiet.2.1
  · obtain ⟨t, a⟩ := x
    cases hmove with
    | piece hpm => exact hpm.pc_facts.2.2
    | @gotError g e => cases g <;> rfl
    | @got g => cases g <;> rfl
    | _ => rfl

theorem step_stamped (h : ContactInv lag s) (hn : s.Noted s' x) (htime : s.Timely lag x)
    {i : Fin n} {t : ℕ} (ht : (s'.world.limiters i).lastRedisOK = some t) :
    ∃ ok ∈ s'.oks i, t ≤ ok + lag := by
  have hold : (s.world.limiters i).lastRedisOK = some t → ∃ ok ∈ s'.oks i, t ≤ ok + lag := by
    intro ht
    obtain ⟨ok, hmem, hle⟩ := h.stamped i t ht
    exact ⟨ok, (hn.suffix i).subset hmem, hle⟩
  rcases hn.moved.limiter i with hsame | ⟨p, inp, t', l, next, evs, ha, hp, hpm, _, hl⟩
  · exact hold (hsame.lastRedisOK ▸ ht)
  · have hunlock : (next.unlock l).lastRedisOK = l.lastRedisOK := by cases next <;> rfl
    rw [hl, hunlock] at ht
    rcases hpm.stamps with hsame | ⟨hsucc, hnow⟩
    · exact hold (hsame ▸ ht)
    · obtain ⟨hmem, -⟩ := h.replied p i _ hp hsucc
      refine ⟨s.arrived p, (hn.suffix i).subset hmem, ?_⟩
      have hread : inp.now = x.1 := hn.reading _ (by rw [ha]; rfl)
      have hle := (htime p (by rw [ha]; rfl) _ hp).2 hsucc
      rw [hnow] at ht
      cases ht
      rw [hread]
      exact hle

theorem covered_piece (h : ContactInv lag s) (hled : LedgerInv redis s.world)
    (hn : s.Noted s' x) (htime : s.Timely lag x) {p : ℕ} {i : Fin n} {t t' : Todo} {inp : Input}
    {l : Limiter} {next : Next} {evs : List (Event n)} (ha : x.2 = .run p inp)
    (hp : s.world.procs p = some ⟨i, .held t⟩)
    (hpm : PieceMove i (s.world.limiters i) inp t l next evs)
    (hl : s'.world.limiters i = next.unlock l) (hpc : next.pc = .held t') :
    Covered (s'.Reached p i) (s'.peeking p) (s'.world.limiters i) t' := by
  have hread : inp.now = x.1 := hn.reading _ (by rw [ha]; rfl)
  have hearly := (htime p (by rw [ha]; rfl) _ hp).1
  have hborn := born hled hp
  cases next with
  | release pc =>
    have hheld := Locked.release_not_held hpm rfl
    have hpc : pc = .held t' := hpc
    rw [hpc] at hheld
    cases hheld
  | hold t₁ =>
    injection hpc with hpc
    subst hpc
    have hcov := hpm.covered rfl (hled.sound i) (fun hs => (h.replied p i _ hp hs).2)
      (fun sl hsl => h.peeks p i _ sl hp hsl) (by rw [hread]; exact hearly) (h.covered p i t hp)
    rw [(hn.old hborn).2, hl]
    exact hcov.frame (hn.reached hborn) rfl rfl

theorem step_covered (h : ContactInv lag s) (hled : LedgerInv redis s.world)
    (hlock : Locked s.world) (hn : s.Noted s' x) (htime : s.Timely lag x) {p : ℕ} {i : Fin n}
    {t : Todo} (hp : s'.world.procs p = some ⟨i, .held t⟩) :
    Covered (s'.Reached p i) (s'.peeking p) (s'.world.limiters i) t := by
  rcases hn.moved.proc hp with hold | ⟨_, hbegins⟩ | ⟨old, hold, hmove⟩
  · rcases hn.moved.limiter i with hsame | ⟨q, inp, t', l, next, evs, ha, hq, hpm, hw, hl⟩
    · rw [(hn.old (born hled hold)).2]
      exact (h.covered p i t hold).frame (hn.reached (born hled hold)) hsame.windows hsame.states
    · -- whoever ran a piece had the lock, and so was this call
      obtain rfl := hlock.unique hold hq
      rw [hold] at hq
      cases hq
      refine covered_piece h hled hn htime ha hold hpm hl ?_
      rw [hw, World.afterPiece, World.procs_setProc, update_self] at hp
      injection hp with hp
      injection hp
  · have := hbegins.quiet.2.2
    cases this
  · obtain ⟨time, a⟩ := x
    generalize hpc : Pc.held t = pc at hmove
    cases hmove with
    | acquired =>
      injection hpc with hpc
      subst hpc
      exact .of_outside (h.outside p i _ hold)
    | piece hpm hl => exact covered_piece h hled hn htime rfl hold hpm hl hpc.symm
    | _ => cases hpc

theorem step (h : ContactInv lag s) (hled : LedgerInv redis s.world) (hlock : Locked s.world)
    (htime : s.Timely lag x) (hstep : s.step x = some s') : ContactInv lag s' := by
  have hn := Watched.Noted.of_step hstep
  exact ⟨h.step_unborn hn, fun _ _ _ => h.step_begun hled hn,
    fun _ _ => h.step_stamped hn htime, fun _ _ _ => h.step_replied hled hn,
    fun _ _ _ _ => h.step_peeks hled hn, fun _ _ _ => h.step_outside hn,
    fun _ _ _ => h.step_covered hled hlock hn htime⟩

theorem answered (h : ContactInv lag s) (hled : LedgerInv redis s.world)
    (hstep : s.step x = some s') {p : ℕ} {i : Fin n} {ans : Answer}
    (hbefore : s.world.procs p ≠ some ⟨i, .answered ans none⟩)
    (hafter : s'.world.procs p = some ⟨i, .answered ans none⟩) :
    (∃ ok ∈ s'.oks i, x.1 < ok + (s'.world.limiters i).syncRate + lag) ∨ s'.Reached p i := by
  have hn := Watched.Noted.of_step hstep
  rcases hn.moved.proc hafter with hold | ⟨_, hbegins⟩ | ⟨old, hold, hmove⟩
  · exact absurd hold hbefore
  · obtain ⟨time, a⟩ := x
    cases hbegins
  · obtain ⟨time, a⟩ := x
    generalize hpc : Pc.answered ans none = pc at hmove
    cases hmove with
    | @piece inp t l next evs hpm hl =>
      have hnext : next = .release (.answered ans none) := by
        cases next with
        | hold => cases hpc
        | release pc => exact congrArg Next.release hpc.symm
      rcases hpm.answered_nil hnext (hled.sound i) (fun hs => (h.replied p i _ hold hs).2)
        (h.covered p i t hold) with hr | hrecent
      · exact .inr (hn.reached (born hled hold) hr)
      · left
        have hread : inp.now = time := hn.reading _ rfl
        have hrate : (s'.world.limiters i).syncRate = (s.world.limiters i).syncRate := by
          rw [hl, hnext]
          exact hpm.control.2
        unfold Limiter.contactedWithinSyncRate at hrecent
        split at hrecent
        · cases hrecent
        next t' ht' =>
          obtain ⟨ok, hmem, hle⟩ := h.stamped i t' ht'
          have hlt := of_decide_eq_true hrecent
          refine ⟨ok, (hn.suffix i).subset hmem, ?_⟩
          rw [hrate]
          dsimp only
          omega
    | _ => cases hpc

end ContactInv

/-! ## Nil errors along a run -/

theorem Watched.step_world {n : ℕ} {s s' : Watched n} {x : ℕ × Action n}
    (h : s.step x = some s') : s.world.step x.2 = some s'.world := by
  unfold step at h
  split at h
  · obtain ⟨w, hw, rfl⟩ := Option.map_eq_some_iff.mp h
    exact hw
  · cases h

/-- In every run whose steps are timely: when a Take or Peek returns a nil
error, Redis answered a GET or an EVAL of its limiter less than `sync_rate`
before the reading, give or take the lag, or during the call. -/
theorem nil_error_after_contact {n : ℕ} (redis : Store) (limiters : Fin n → Limiter)
    (hnew : ∀ i, ∃ rate, 0 < rate ∧ Limiter.new rate = some (limiters i)) (lag : ℕ)
    (acts : List (ℕ × Action n)) (s : Watched n)
    (hrun : run Watched.step (Watched.init redis limiters) acts = some s)
    (htimely : Along Watched.step (Watched.Timely lag) (Watched.init redis limiters) acts)
    (x : ℕ × Action n) (s' : Watched n) (hstep : s.step x = some s') (p : ℕ) (i : Fin n)
    (ans : Answer) (hbefore : s.world.procs p ≠ some ⟨i, .answered ans none⟩)
    (hafter : s'.world.procs p = some ⟨i, .answered ans none⟩) :
    (∃ ok ∈ s'.oks i, x.1 < ok + (s'.world.limiters i).syncRate + lag) ∨ s'.Reached p i := by
  have hinv : ∀ (s : Watched n) x s', LedgerInv redis s.world ∧ Locked s.world ∧ ContactInv lag s →
      Watched.Timely lag s x → Watched.step s x = some s' →
      LedgerInv redis s'.world ∧ Locked s'.world ∧ ContactInv lag s' := by
    rintro s x s' ⟨hled, hlock, hc⟩ htime hs
    have hw := Watched.step_world hs
    exact ⟨hled.step hw, hlock.step (.of_step hw), hc.step hled hlock htime hs⟩
  obtain ⟨hled, -, hc⟩ := run_inv_along hinv htimely
    ⟨ledgerInv_init hnew, Locked.init, contactInv_init hnew⟩ hrun
  exact hc.answered hled hstep hbefore hafter

/-- Actions at a time. -/
def timed {n : ℕ} (t : ℕ) (acts : List (Action n)) : List (ℕ × Action n) := acts.map (t, ·)

def peekAlone : List (Action 1) :=
  [Action.peek sole "k" 1 1000000000 0] ++ pieces 0 2 ++ [Action.get 0 none] ++ pieces 0 3 ++
    [Action.get 0 none] ++ pieces 0 3

/-- A second Peek half a second later, up to its outage check. -/
def promptPeek : List (ℕ × Action 1) :=
  timed 0 peekAlone ++ timed 500000000 ([Action.peek sole "k" 1 1000000000 500000000] ++
    List.replicate 3 (.run 1 ⟨500000000, [], none⟩))

theorem nil_error_after_contact_promptPeek :
    ∃ s s' ans, run Watched.step (Watched.init Store.empty fun _ => everySecond) promptPeek =
        some s ∧ s.step (500000000, .run 1 ⟨500000000, [], none⟩) = some s' ∧
      s'.world.procs 1 = some ⟨0, .answered ans none⟩ ∧ s'.oks 0 = [0, 0] ∧
      ((∃ ok ∈ s'.oks 0, 500000000 < ok + (s'.world.limiters 0).syncRate + 0) ∨
        s'.Reached 1 0) := by
  refine ⟨_, _, _, rfl, rfl, rfl, rfl, ?_⟩
  exact nil_error_after_contact Store.empty (fun _ => everySecond)
    (fun _ => ⟨1000000000, by decide, (Option.some_get _).symm⟩) 0 promptPeek _ rfl
    (by decide +kernel) (500000000, .run 1 ⟨500000000, [], none⟩) _ rfl 1 0 _ nofun rfl

/-- A second Peek that reads the clock in the first window and gets the lock
when that window's buffer has expired. -/
def silentPeek : List (ℕ × Action 1) :=
  timed 0 (peekAlone ++ [Action.peek sole "k" 1 1000000000 0]) ++
    timed 2000000000 (List.replicate 7 (.run 1 ⟨2000000000, [], none⟩))

/-- It returns a nil error two seconds after the last answer of Redis, with
a `sync_rate` of one second. -/
theorem silentPeek_nil_error :
    ∃ s s' ans, run Watched.step (Watched.init Store.empty fun _ => everySecond) silentPeek =
        some s ∧ s.step (2000000000, .run 1 ⟨2000000000, [], none⟩) = some s' ∧
      s.world.procs 1 = some ⟨0, .held (.recheck ans none)⟩ ∧
      s'.world.procs 1 = some ⟨0, .answered ans none⟩ ∧
      (∀ ok ∈ s'.oks 0, ok + (s'.world.limiters 0).syncRate ≤ 2000000000) ∧ ¬s'.Reached 1 0 :=
  ⟨_, _, _, rfl, rfl, rfl, rfl, by decide +kernel, by decide +kernel⟩

end MiddlewareUtils.WindowCounter
