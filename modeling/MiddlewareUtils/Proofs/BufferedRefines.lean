import MiddlewareUtils.Proofs.BufferedShared
import MiddlewareUtils.WindowCounter.SideBySide

/-!
# Buffered mode answers as exact mode does

For a sole client the split of a count into `redisKnown`, `localDelta` and
Redis is invisible. The invariant that says so has three layers.

The hits the buffered limiter has counted are the hits the exact limiter has
sent, but for one: a Take sends its INCR when it begins and counts its hit
later (`settled`, `owed`).

With no EVAL in flight a buffered count is the number of hits. This is the
conservation of hits, and that the limiter tracks Redis; a run of one call
at a time meets what that asks of the steps, since no reply is in hand while
another call's EVAL is applied.

So a call reads off its buffers the counts the exact limiter read when the
call began, and the answer it settles on, wherever it is carried from there,
is the exact one (`Agrees`).
-/

namespace MiddlewareUtils.WindowCounter

open Lib Function

/-! ## What a call carries -/

def FlushCaller.answer : FlushCaller → Option Answer
  | .probe ans => some ans
  | _ => none

namespace Todo

def answer : Todo → Option Answer
  | outage ans | recheck ans _ | probeApply ans _ => some ans
  | flushStart caller => caller.answer
  | flushNext f _ | evalApply f _ _ _ | evict f => f.caller.answer
  | _ => none

end Todo

namespace Pc

def answer : Pc → Option Answer
  | lock t | held t => t.answer
  | getting (.probe ans _) => some ans
  | evaling f _ _ => f.caller.answer
  | answered ans _ => some ans
  | _ => none

def peeked : Pc → Option (SlidingWindow × ℤ × ℤ)
  | lock t | held t => t.peeked
  | getting (.peekPrevious sl limit current) => some (sl, limit, current)
  | _ => none

def carried (pc : Pc) : Option Answer × Option (SlidingWindow × ℤ) × Option ℤ ×
    Option (SlidingWindow × ℤ) × Option (SlidingWindow × ℤ × ℤ) :=
  (pc.answer, pc.take, pc.previous, pc.peek, pc.peeked)

end Pc

structure Agrees (ans : Option Answer) (hits : WindowKey → ℤ) (pc : Pc) : Prop where
  decided : ∀ a, pc.answer = some a → ans = some a
  take : ∀ sl limit, pc.take = some (sl, limit) →
    ans = some (estimate (hits sl.currentKey + 1) (hits sl.previousKey) sl limit)
  previous : ∀ sl limit v, pc.take = some (sl, limit) → pc.previous = some v →
    v = hits sl.previousKey
  peek : ∀ sl limit, pc.peek = some (sl, limit) →
    ans = some (estimate (hits sl.currentKey) (hits sl.previousKey) sl limit)
  current : ∀ sl limit c, pc.peeked = some (sl, limit, c) →
    pc.peek = some (sl, limit) ∧ c = hits sl.currentKey

namespace Agrees

variable {ans : Option Answer} {hits hits' : WindowKey → ℤ} {pc old : Pc}

theorem same (h : Agrees ans hits old) (heq : pc.carried = old.carried) : Agrees ans hits pc := by
  simp only [Pc.carried, Prod.mk.injEq] at heq
  obtain ⟨ha, ht, hv, hp, hc⟩ := heq
  refine ⟨?_, ?_, ?_, ?_, ?_⟩
  · rw [ha]; exact h.decided
  · rw [ht]; exact h.take
  · rw [ht, hv]; exact h.previous
  · rw [hp]; exact h.peek
  · rw [hc, hp]; exact h.current

theorem nothing (heq : pc.carried = (none, none, none, none, none)) : Agrees ans hits pc := by
  simp only [Pc.carried, Prod.mk.injEq] at heq
  obtain ⟨ha, ht, hv, hp, hc⟩ := heq
  refine ⟨?_, ?_, ?_, ?_, ?_⟩ <;> intros <;> simp_all

theorem counted (h : Agrees ans hits pc) (ht : pc.take = none) (hp : pc.peek = none) :
    Agrees ans hits' pc := by
  refine ⟨h.decided, ?_, ?_, ?_, ?_⟩
  · intro sl limit hx; rw [ht] at hx; cases hx
  · intro sl limit v hx; rw [ht] at hx; cases hx
  · intro sl limit hx; rw [hp] at hx; cases hx
  · intro sl limit c hx
    have := (h.current sl limit c hx).1
    rw [hp] at this
    cases this

theorem of_answer {a : Answer} (ha : pc.carried = (some a, none, none, none, none))
    (h : ans = some a) : Agrees ans hits pc := by
  simp only [Pc.carried, Prod.mk.injEq] at ha
  obtain ⟨ha, ht, hv, hp, hc⟩ := ha
  refine ⟨?_, ?_, ?_, ?_, ?_⟩ <;> intros <;> simp_all

end Agrees

section Pieces

variable {l l' : Limiter} {inp : Input} {t : Todo} {next : Next} {evs : List (Event 1)}
  {w : World 1} {p : ℕ} {ans : Option Answer} {hits : WindowKey → ℤ}

theorem count_raise {j : Ptr} {e : ℤ} : (l.raise j e).count j = l.count j := by
  rw [Limiter.count, states_raise]
  rfl

structure Reads (w : World 1) (t : Todo) (hits : WindowKey → ℤ) : Prop where
  tracks : ∀ x, t.take = some x ∨ t.peek = some x →
    ∀ k, k = x.1.currentKey ∨ k = x.1.previousKey →
      Tracks 0 k w ∧ (∀ q, ¬w.InFlight q 0 k) ∧
        w.redis.get k + (w.limiters 0).pendingDelta k = hits k
  cur : ∀ sl limit cur previous, t = .takeHit sl limit cur previous →
    (w.limiters 0).windows sl.currentKey = some cur

theorem PieceMove.agrees (hm : PieceMove 0 (w.limiters 0) inp t l' next evs)
    (hp : w.procs p = some ⟨0, .held t⟩) (hr : Reads w t hits)
    (h : Agrees ans hits (.held t)) : Agrees ans hits next.pc := by
  -- the previous count of a Take, and the answer of a Peek
  have htake : ∀ sl limit cur v, t.take = some (sl, limit) →
      next = .hold (.takeHit sl limit cur v) → v = hits sl.previousKey := by
    intro sl limit cur v ht hnext
    obtain ⟨htracks, hquiet, hc⟩ := hr.tracks _ (.inl ht) _ (.inr rfl)
    exact (htracks.uses hquiet hc hp hm).1 sl limit cur v hnext rfl
  have hhit : ∀ sl limit cur v, next = .hold (.takeHit sl limit cur v) →
      t.take = some (sl, limit) → Agrees ans hits (.held (.takeHit sl limit cur v)) := by
    intro sl limit cur v hnext ht
    refine ⟨fun _ ha => (nomatch ha), ?_, ?_, fun _ _ hx => (nomatch hx),
      fun _ _ _ hx => (nomatch hx)⟩
    · rintro sl' limit' ⟨⟩
      exact h.take sl limit ht
    · rintro sl' limit' v' ⟨⟩ ⟨⟩
      exact htake sl limit cur v ht hnext
  have hlook : ∀ sl limit c, t.peek = some (sl, limit) → c = hits sl.currentKey →
      Agrees ans hits (.held (.peekPrev sl limit c)) := by
    intro sl limit c ht hc
    refine ⟨fun _ ha => (nomatch ha), fun _ _ hx => (nomatch hx),
      fun _ _ _ hx => (nomatch hx), ?_, ?_⟩
    · rintro sl' limit' ⟨⟩
      exact h.peek sl limit ht
    · rintro sl' limit' c' ⟨⟩
      exact ⟨rfl, hc⟩
  have hsettle : ∀ sl limit current a, t.peeked = some (sl, limit, current) →
      next = .hold (.outage a) → Agrees ans hits (.held (.outage a)) := by
    intro sl limit current a ht hnext
    obtain ⟨hpeek, hcur⟩ := h.current sl limit current ht
    obtain ⟨htracks, hquiet, hc⟩ := hr.tracks _ (.inr hpeek) _ (.inr rfl)
    refine .of_answer rfl ?_
    rw [h.peek sl limit hpeek, (htracks.uses hquiet hc hp hm).2 sl limit current a ht rfl hnext,
      hcur]
    rfl
  cases hm with
  | takePrevBuffered | takePrevSeed => exact hhit _ _ _ _ rfl rfl
  | @takeHit sl cur limit previous a hans =>
    obtain ⟨htracks, hquiet, hc⟩ := hr.tracks (sl, limit) (.inl rfl) _ (.inl rfl)
    have hcount := htracks.count hquiet (hr.cur sl limit cur previous rfl)
    refine .of_answer rfl ?_
    rw [hc, Limiter.count] at hcount
    rw [h.take sl limit rfl, hans, count_hit, h.previous sl limit previous rfl rfl, ← add_assoc,
      hcount]
    rfl
  | @peekBuffered sl limit j hmap =>
    obtain ⟨htracks, hquiet, hc⟩ := hr.tracks (sl, limit) (.inr rfl) _ (.inl rfl)
    exact hlook sl limit _ rfl (count_raise.trans ((htracks.count hquiet hmap).trans hc))
  | @peekSeed sl limit known =>
    obtain ⟨htracks, hquiet, hc⟩ := hr.tracks (sl, limit) (.inr rfl) _ (.inl rfl)
    exact hlook sl limit _ rfl ((htracks.count_applyGet hquiet hp rfl).trans hc)
  | peekPrevBuffered | peekPrevSeed => exact hsettle _ _ _ _ rfl rfl
  | takeFailed | takePrevFailed | peekFailed | peekPrevFailed => exact .nothing rfl
  | @evict f =>
    refine h.same ?_
    obtain ⟨caller, nowUnix, firstErr⟩ := f
    cases caller <;> rfl
  | _ => exact h.same rfl

end Pieces

/-! ## What a step does to the call in progress -/

section Steps

variable {w w' : World 1} {a : Action 1} {i : Fin 1} {k : WindowKey} {p : ℕ} {pc : Pc}

theorem Moved.clock (hm : Moved w a w') :
    w'.clock = w.clock ∨ ∃ now ∈ a.reading, w'.clock = max w.clock (unix now) := by
  cases hm with
  | takeRefused | took | peekRefused | peeked | expired | piece => exact .inr ⟨_, rfl, rfl⟩
  | _ => exact .inl rfl

theorem Moved.active (hm : Moved w a w') (hp : w'.procs p = some ⟨i, pc⟩)
    (hpc : pc.returned = false) :
    (p = w.next ∧ Begins i a pc) ∨ ∃ old, w.procs p = some ⟨i, old⟩ ∧ old.returned = false := by
  rcases hm.proc hp with hold | hnew | ⟨old, hold, hmove⟩
  · exact .inr ⟨pc, hold, hpc⟩
  · exact .inl hnew
  · refine .inr ⟨old, hold, ?_⟩
    cases hmove <;> rfl

theorem Moved.hits (hm : Moved w a w') :
    ((∀ k, w'.hits 0 k = w.hits 0 k) ∧ ∀ p inp sl limit cur previous, a = .run p inp →
      w.procs p ≠ some ⟨0, .held (.takeHit sl limit cur previous)⟩) ∨
      ∃ p inp sl limit cur previous ans, a = .run p inp ∧
        w.procs p = some ⟨0, .held (.takeHit sl limit cur previous)⟩ ∧
        w'.procs p = some ⟨0, .held (.outage ans)⟩ ∧
        ∀ k, w'.hits 0 k = w.hits 0 k + if sl.currentKey = k then 1 else 0 := by
  have hlog : ∀ e : Event 1, (∀ k, e.hits 0 k = 0) → w'.log = w.log ++ [e] →
      ∀ k, w'.hits 0 k = w.hits 0 k := by
    intro e he hlog k
    rw [World.hits, hlog, List.map_append, List.sum_append, List.map_singleton,
      List.sum_singleton, he k, add_zero]
    rfl
  have hsame : w'.log = w.log → ∀ k, w'.hits 0 k = w.hits 0 k := by
    intro hlog k
    rw [World.hits, hlog]
    rfl
  cases hm with
  | @piece p inp i t l next evs hp hpm =>
    obtain rfl : i = 0 := Subsingleton.elim _ _
    cases hpm with
    | @takeHit sl cur limit previous ans hans =>
      refine .inr ⟨p, inp, sl, limit, cur, previous, ans, rfl, hp, update_self .., ?_⟩
      intro k
      show ((w.log ++ [_]).map (Event.hits 0 k)).sum = _
      rw [List.map_append, List.sum_append, List.map_singleton, List.sum_singleton]
      refine congrArg (w.hits 0 k + ·) ?_
      simp [Event.hits]
    | evalAcked =>
      refine .inl ⟨hlog _ (fun _ => rfl) rfl, ?_⟩
      rintro _ _ sl limit cur previous ⟨⟩ hp'
      rw [hp] at hp'
      cases hp'
    | _ =>
      refine .inl ⟨hsame (List.append_nil _), ?_⟩
      rintro _ _ sl limit cur previous ⟨⟩ hp'
      rw [hp] at hp'
      cases hp'
  | acquired hp | tickDone hp | stopInTime hp | stopLate hp | stopDone hp | stopWaited hp =>
    refine .inl ⟨hsame rfl, ?_⟩
    rintro _ _ sl limit cur previous ⟨⟩ hp'
    rw [hp] at hp'
    cases hp'
  | evaled => exact .inl ⟨hlog _ (fun _ => rfl) rfl, fun _ _ _ _ _ _ ha => by cases ha⟩
  | _ => exact .inl ⟨hsame rfl, fun _ _ _ _ _ _ ha => by cases ha⟩

theorem PcMoved.carried {old : Pc} (hm : PcMoved w w' p i a old pc) :
    pc.carried = old.carried ∨ ∃ inp t l next evs, a = .run p inp ∧ old = .held t ∧
      PieceMove i (w.limiters i) inp t l next evs ∧ pc = next.pc := by
  cases hm with
  | piece hpm => exact .inr ⟨_, _, _, _, _, rfl, rfl, hpm, rfl⟩
  | @got g | @gotError g => cases g <;> exact .inl rfl
  | _ => exact .inl rfl

theorem Begins.carried (h : Begins i a pc) :
    (∃ key limit window now sl, a = .take i key limit window now ∧
        slidingAt key window now = .ok sl ∧ pc = .lock (.takeEnter sl limit)) ∨
      (∃ key limit window now sl, a = .peek i key limit window now ∧
        slidingAt key window now = .ok sl ∧ pc = .lock (.peekEnter sl limit)) ∨
      pc.carried = (none, none, none, none, none) := by
  cases h with
  | take hsl => exact .inl ⟨_, _, _, _, _, rfl, hsl, rfl⟩
  | peek hsl => exact .inr (.inl ⟨_, _, _, _, _, rfl, hsl, rfl⟩)
  | _ => exact .inr (.inr rfl)

theorem Moved.took_proc {key : String} {limit window : ℤ} {now : ℕ} {sl : SlidingWindow}
    (hm : Moved w (.take i key limit window now) w') (hsl : slidingAt key window now = .ok sl) :
    w'.procs w.next = some ⟨i, .lock (.takeEnter sl limit)⟩ := by
  cases hm with
  | takeRefused herr =>
    rw [hsl] at herr
    cases herr
  | took hsl' =>
    rw [hsl] at hsl'
    cases hsl'
    exact update_self ..

theorem Moved.peeked_proc {key : String} {limit window : ℤ} {now : ℕ} {sl : SlidingWindow}
    (hm : Moved w (.peek i key limit window now) w') (hsl : slidingAt key window now = .ok sl) :
    w'.procs w.next = some ⟨i, .lock (.peekEnter sl limit)⟩ := by
  cases hm with
  | peekRefused herr =>
    rw [hsl] at herr
    cases herr
  | peeked hsl' =>
    rw [hsl] at hsl'
    cases hsl'
    exact update_self ..

theorem PieceMove.keeps_take {l l' : Limiter} {inp : Input} {t : Todo} {next : Next}
    {evs : List (Event 1)} {x : SlidingWindow × ℤ} (hm : PieceMove i l inp t l' next evs)
    (ht : t.take = some x) (herr : t.errs = false) :
    next.pc.take = some x ∨ ∃ sl limit cur previous, t = .takeHit sl limit cur previous := by
  cases hm with
  | takeMiss | takeRefresh | takeBuffered | takeSeed | takePrevMiss | takePrevBuffered
  | takePrevSeed => exact .inl ht
  | takeHit => exact .inr ⟨_, _, _, _, rfl⟩
  | takeFailed | takePrevFailed => cases herr
  | _ => cases ht

theorem PieceMove.peek_from {l l' : Limiter} {inp : Input} {t : Todo} {next : Next}
    {evs : List (Event 1)} {x : SlidingWindow × ℤ} (hm : PieceMove i l inp t l' next evs)
    (hx : next.pc.peek = some x) : t.peek = some x := by
  cases hm with
  | peekMiss | peekBuffered | peekSeed | peekPrevMiss => exact hx
  | evict =>
    unfold afterFlush at hx
    split at hx <;> cases hx
  | _ => cases hx

theorem Moved.window_from {x : SlidingWindow × ℤ} (hm : Moved w a w')
    (hp : w'.procs p = some ⟨i, pc⟩) (hx : pc.take = some x ∨ pc.peek = some x) :
    (p = w.next ∧ Begins i a pc) ∨ ∃ old, w.procs p = some ⟨i, old⟩ ∧
      (pc.take = some x → old.take = some x) ∧ (pc.peek = some x → old.peek = some x) := by
  rcases hm.proc hp with hold | hnew | ⟨old, hold, hmove⟩
  · exact .inr ⟨pc, hold, id, id⟩
  · exact .inl hnew
  · refine .inr ⟨old, hold, ?_⟩
    rcases hmove.carried with heq | ⟨inp, t, l, next, evs, _, rfl, hpm, rfl⟩
    · simp only [Pc.carried, Prod.mk.injEq] at heq
      rw [heq.2.1, heq.2.2.2.1]
      exact ⟨id, id⟩
    · exact ⟨hpm.carries.take x, hpm.peek_from⟩

theorem Pc.take_active {x : SlidingWindow × ℤ} (h : pc.take = some x) : pc.returned = false := by
  cases pc with
  | answered | failed | finished => cases h
  | _ => rfl

theorem Pc.peek_active {x : SlidingWindow × ℤ} (h : pc.peek = some x) : pc.returned = false := by
  cases pc with
  | answered | failed | finished => cases h
  | _ => rfl

end Steps

/-! ## The invariant of the pair -/

/-- No reading has come two windows after the start of the key's window. -/
def World.Alive (w : World 1) (windowSec : ℤ) (k : WindowKey) : Prop :=
  w.clock < k.windowStart + 2 * windowSec

structure InWindow (windowSec : ℤ) (w : World 1) (sl : SlidingWindow) : Prop where
  pos : 0 < windowSec
  start : sl.previousKey.windowStart = sl.currentKey.windowStart - windowSec
  ttl : sl.ttlSec = 2 * windowSec
  previous : w.Alive windowSec sl.previousKey

theorem InWindow.current {windowSec : ℤ} {w : World 1} {sl : SlidingWindow}
    (h : InWindow windowSec w sl) : w.Alive windowSec sl.currentKey := by
  have h₁ := h.previous
  have h₂ := h.start
  have h₃ := h.pos
  unfold World.Alive at h₁ ⊢
  omega

structure Refines (windowSec : ℤ) (s : Pair) : Prop where
  ledger : LedgerInv Store.empty s.buffered
  healthy : Healthy 0 0 s.buffered
  asked : ∀ k t, t ∈ s.buffered.asked k → t = k.windowStart + 2 * windowSec
  alone : ∀ p q pc qc, s.buffered.procs p = some ⟨0, pc⟩ → s.buffered.procs q = some ⟨0, qc⟩ →
    pc.returned = false → qc.returned = false → p = q
  tracks : ∀ k, s.buffered.Fresh k → Tracks 0 k s.buffered
  windows : ∀ p pc x, s.buffered.procs p = some ⟨0, pc⟩ → pc.take = some x ∨ pc.peek = some x →
    InWindow windowSec s.buffered x.1
  settled : ∀ k, s.buffered.Alive windowSec k →
    (∀ p pc x, s.buffered.procs p = some ⟨0, pc⟩ → pc.take = some x → x.1.currentKey ≠ k) →
    s.exact.get k = s.buffered.hits 0 k
  owed : ∀ p pc x, s.buffered.procs p = some ⟨0, pc⟩ → pc.take = some x →
    s.exact.get x.1.currentKey = s.buffered.hits 0 x.1.currentKey + 1
  calls : ∀ p pc, s.buffered.procs p = some ⟨0, pc⟩ →
    Agrees (s.answers p) (s.buffered.hits 0) pc

theorem get_takeExact {r : Store} {now : ℤ} {sl : SlidingWindow} {k : WindowKey} (limit : ℤ) :
    (takeExact r now sl limit).1.get k = r.get k + if sl.currentKey = k then 1 else 0 := by
  have hincr : (r.incrBy sl.currentKey 1).get k =
      r.get k + if sl.currentKey = k then 1 else 0 := by
    by_cases hk : sl.currentKey = k
    · subst hk
      rw [Store.get_incrBy_self, if_pos rfl]
    · rw [Store.get_incrBy_of_ne (Ne.symm hk), if_neg hk, add_zero]
  unfold takeExact
  dsimp only
  split
  · rw [Store.get_expireAt, hincr]
  · exact hincr

theorem takeExact_answer {r : Store} {now limit : ℤ} {sl : SlidingWindow}
    (hne : sl.currentKey ≠ sl.previousKey) :
    (takeExact r now sl limit).2 =
      estimate (r.get sl.currentKey + 1) (r.get sl.previousKey) sl limit := by
  have hprev : (takeExact r now sl limit).1.get sl.previousKey = r.get sl.previousKey := by
    rw [get_takeExact limit, if_neg hne, add_zero]
  show estimate ((r.incrBy sl.currentKey 1).get sl.currentKey)
    ((takeExact r now sl limit).1.get sl.previousKey) sl limit = _
  rw [hprev, Store.get_incrBy_self]

theorem LedgerInv.get_add_pending {w : World 1} {k : WindowKey}
    (h : LedgerInv Store.empty w) (hf : w.Fresh k) (hquiet : ∀ p, ¬w.InFlight p 0 k) :
    w.redis.get k + (w.limiters 0).pendingDelta k = w.hits 0 k := by
  rw [h.total k hf, Fin.sum_univ_one, h.applied_of_quiet hquiet, h.conserve 0 k hf,
    Store.get_empty, zero_add]

namespace Pair

variable {s s' : Pair} {a : Action 1} {key : String} {window windowSec : ℤ}

theorem Begin.idle {i : Fin 1} {pc : Pc} (h : s.Begin key window a) (hb : Begins i a pc) :
    s.Idle := by
  cases hb with
  | take | peek => exact h.1
  | sleep | wake | fire => exact h
  | close => exact h.elim

structure Followed (s s' : Pair) (a : Action 1) : Prop where
  moved : Moved s.buffered a s'.buffered
  exact : s'.exact = (s.follow a).exact
  answers : s'.answers = (s.follow a).answers

theorem follow_answers {p : ℕ} (hp : p ≠ s.buffered.next) :
    (s.follow a).answers p = s.answers p := by
  unfold follow call
  split
  · split
    · rfl
    · exact update_of_ne hp ..
  · split
    · rfl
    · exact update_of_ne hp ..
  · rfl

theorem follow_get (k : WindowKey) :
    (s.follow a).exact.get k = s.exact.get k ∨
      ∃ i key limit window now sl, a = .take i key limit window now ∧
        slidingAt key window now = .ok sl ∧
        (s.follow a).exact.get k = s.exact.get k + if sl.currentKey = k then 1 else 0 := by
  cases a with
  | take i key limit window now =>
    dsimp only [follow]
    unfold call
    split
    · exact .inl rfl
    next sl hsl => exact .inr ⟨i, key, limit, window, now, sl, rfl, hsl, get_takeExact limit⟩
  | peek i key limit window now =>
    left
    dsimp only [follow]
    unfold call
    split <;> rfl
  | _ => exact .inl rfl

end Pair

namespace Refines

variable {s s' : Pair} {a : Action 1} {key : String} {window windowSec : ℤ}

theorem fresh {k : WindowKey} (h : Refines windowSec s) (hk : s.buffered.Alive windowSec k) :
    s.buffered.Fresh k := by
  intro t ht
  rw [h.asked k t ht]
  exact hk

theorem born {p : ℕ} {i : Fin 1} {pc : Pc} (h : Refines windowSec s)
    (hp : s.buffered.procs p = some ⟨i, pc⟩) : p < s.buffered.next := by
  by_contra hge
  rw [h.ledger.unborn p (not_lt.mp hge)] at hp
  cases hp

theorem returned_of_idle {p : ℕ} {i : Fin 1} {pc : Pc} (h : Refines windowSec s) (hidle : s.Idle)
    (hp : s.buffered.procs p = some ⟨i, pc⟩) : pc.returned = true :=
  hidle p (h.born hp) _ hp

theorem not_take_of_idle {p : ℕ} {i : Fin 1} {pc : Pc} {x : SlidingWindow × ℤ}
    (h : Refines windowSec s) (hidle : s.Idle) (hp : s.buffered.procs p = some ⟨i, pc⟩) :
    pc.take ≠ some x := by
  intro hx
  have := h.returned_of_idle hidle hp
  rw [Pc.take_active hx] at this
  cases this

theorem nothingOutdated (h : Refines windowSec s) (k : WindowKey) :
    NothingOutdated 0 k s.buffered a := by
  unfold NothingOutdated
  split
  · intro x hx hflight
    refine ⟨fun hne => absurd (Subsingleton.elim _ _) hne, ?_⟩
    intro q _ y hy _ reply hreply
    obtain ⟨i, pc⟩ := x
    obtain ⟨i', qc⟩ := y
    obtain rfl : i = 0 := Subsingleton.elim _ _
    obtain rfl : i' = 0 := Subsingleton.elim _ _
    have hpc : pc.returned = false := by
      cases pc with
      | answered | failed | finished => cases hflight
      | _ => rfl
    have hqc : qc.returned = false := by
      cases qc with
      | answered | failed | finished => cases hreply
      | _ => rfl
    obtain rfl := h.alone _ _ _ _ hx hy hpc hqc
    have hxy : pc = qc := (Proc.mk.inj (Option.some.inj (hx.symm.trans hy))).2
    subst hxy
    cases pc with
    | lock t | held t =>
      cases t with
      | evalApply => cases hreply
      | _ => cases hflight
    | evaling => cases hreply
    | _ => cases hflight
  · trivial

theorem quiet {p : ℕ} {t : Todo} {x : SlidingWindow × ℤ} (h : Refines windowSec s)
    (hp : s.buffered.procs p = some ⟨0, .held t⟩) (hx : t.take = some x ∨ t.peek = some x)
    (q : ℕ) (k : WindowKey) : ¬s.buffered.InFlight q 0 k := by
  rintro ⟨qc, hq, hflight⟩
  have hqc : qc.returned = false := by
    cases qc with
    | answered | failed | finished => cases hflight
    | _ => rfl
  obtain rfl := h.alone _ _ _ _ hp hq rfl hqc
  rw [hp] at hq
  cases hq
  cases t with
  | evalApply => rcases hx with hx | hx <;> cases hx
  | _ => cases hflight

theorem reads {p : ℕ} {t : Todo} (h : Refines windowSec s)
    (hp : s.buffered.procs p = some ⟨0, .held t⟩) : Reads s.buffered t (s.buffered.hits 0) := by
  have halive : ∀ x, t.take = some x ∨ t.peek = some x →
      ∀ k, k = x.1.currentKey ∨ k = x.1.previousKey → s.buffered.Fresh k := by
    rintro x hx k (rfl | rfl)
    · exact h.fresh (h.windows p _ x hp hx).current
    · exact h.fresh (h.windows p _ x hp hx).previous
  refine ⟨?_, ?_⟩
  · intro x hx k hk
    have hf := halive x hx k hk
    have hquiet : ∀ q, ¬s.buffered.InFlight q 0 k := fun q => h.quiet hp hx q k
    exact ⟨h.tracks k hf, hquiet, h.ledger.get_add_pending hf hquiet⟩
  · rintro sl limit cur previous rfl
    exact ((h.ledger.procs p 0 _ hp).cur _ _ rfl).mapped
      (halive (sl, limit) (.inl rfl) _ (.inl rfl))

theorem alive_of_moved {w' : World 1} {k : WindowKey} (hm : Moved s.buffered a w')
    (hk : w'.Alive windowSec k) : s.buffered.Alive windowSec k := by
  unfold World.Alive at hk ⊢
  rcases hm.clock with hc | ⟨now, _, hc⟩ <;> rw [hc] at hk
  · exact hk
  · exact lt_of_le_of_lt (le_max_left _ _) hk

theorem hit_by {p q : ℕ} {pc old : Pc} {sl : SlidingWindow} {limit previous : ℤ} {cur : Ptr}
    {ans : Answer} (h : Refines windowSec s)
    (hq : s.buffered.procs q = some ⟨0, .held (.takeHit sl limit cur previous)⟩)
    (hq' : s'.buffered.procs q = some ⟨0, .held (.outage ans)⟩)
    (hold : s.buffered.procs p = some ⟨0, old⟩) (hactive : old.returned = false)
    (hp : s'.buffered.procs p = some ⟨0, pc⟩) : pc = .held (.outage ans) := by
  obtain rfl := h.alone _ _ _ _ hold hq hactive rfl
  rw [hp] at hq'
  cases hq'
  rfl

section Step

variable (h : Refines windowSec s) (hf : s.Followed s' a) (hbegin : s.Begin key window a)
include h hf hbegin

theorem step_asked (hsec : windowSec = window / second) (k : WindowKey) (t : ℤ)
    (ht : t ∈ s'.buffered.asked k) : t = k.windowStart + 2 * windowSec := by
  have hask : ∀ {key now sl}, slidingAt key window now = .ok sl →
      t ∈ ((s.buffered.reading now).ask sl).asked k → t = k.windowStart + 2 * windowSec := by
    intro key now sl hsl ht
    obtain ⟨-, hspec⟩ := slidingAt_ok hsl
    by_cases hk : k = sl.currentKey
    · subst hk
      have ht : t ∈ update s.buffered.asked sl.currentKey _ sl.currentKey := ht
      rw [update_self] at ht
      rcases List.mem_cons.mp ht with rfl | ht
      · rw [hspec.expire_eq, hsec]
      · exact h.asked _ t ht
    · have ht : t ∈ update s.buffered.asked sl.currentKey _ k := ht
      rw [update_of_ne hk] at ht
      exact h.asked k t ht
  generalize hw : s'.buffered = w' at ht
  have hm := hf.moved
  rw [hw] at hm
  cases hm with
  | took hsl =>
    obtain ⟨_, _, rfl⟩ := hbegin
    exact hask hsl ht
  | peeked hsl =>
    obtain ⟨_, _, rfl⟩ := hbegin
    exact hask hsl ht
  | _ => exact h.asked k t ht

theorem step_alone {p q : ℕ} {pc qc : Pc} (hp : s'.buffered.procs p = some ⟨0, pc⟩)
    (hq : s'.buffered.procs q = some ⟨0, qc⟩) (hpc : pc.returned = false)
    (hqc : qc.returned = false) : p = q := by
  have hclash : ∀ {q i a' pc old}, Begins i a' pc → a' = a →
      s.buffered.procs q = some ⟨0, old⟩ → old.returned = false → False := by
    rintro q i a' pc old hb rfl hq hold
    have := h.returned_of_idle (hbegin.idle hb) hq
    rw [hold] at this
    cases this
  rcases hf.moved.active hp hpc with ⟨rfl, hb⟩ | ⟨old, hp', hold⟩
  · rcases hf.moved.active hq hqc with ⟨rfl, _⟩ | ⟨old', hq', hold'⟩
    · rfl
    · exact (hclash hb rfl hq' hold').elim
  · rcases hf.moved.active hq hqc with ⟨rfl, hb⟩ | ⟨old', hq', hold'⟩
    · exact (hclash hb rfl hp' hold).elim
    · exact h.alone p q old old' hp' hq' hold hold'

theorem step_windows (hsec : windowSec = window / second) (htime : ∀ now ∈ a.reading, s.InTime now)
    {p : ℕ} {pc : Pc} {x : SlidingWindow × ℤ} (hp : s'.buffered.procs p = some ⟨0, pc⟩)
    (hx : pc.take = some x ∨ pc.peek = some x) : InWindow windowSec s'.buffered x.1 := by
  have hnew : ∀ {key now sl}, slidingAt key window now = .ok sl → a.reading = some now →
      InWindow windowSec s'.buffered sl := by
    intro key now sl hsl hread
    obtain ⟨hpos, hspec⟩ := slidingAt_ok hsl
    have hle : s'.buffered.clock ≤ unix now := by
      have hback := (htime now hread).1
      rcases hf.moved.clock with hc | ⟨now', hnow', hc⟩
      · omega
      · obtain rfl : now' = now := Option.some.inj (hnow'.symm.trans hread)
        omega
    have hprev := congrArg WindowKey.windowStart hspec.previous
    have hlt := hspec.lt_end
    have hp : sl.previousKey.windowStart = sl.currentKey.windowStart - windowSec := by
      rw [hsec]; exact hprev
    refine ⟨hsec ▸ hpos, hp, hsec ▸ hspec.ttl_eq, ?_⟩
    unfold World.Alive
    rw [← hsec] at hlt
    omega
  rcases hf.moved.window_from hp hx with ⟨rfl, hb⟩ | ⟨old, hold, htake, hpeek⟩
  · rcases hb.carried with ⟨k', limit, win, now, sl, rfl, hsl, rfl⟩ |
      ⟨k', limit, win, now, sl, rfl, hsl, rfl⟩ | hnone
    · obtain ⟨_, _, rfl⟩ := hbegin
      rcases hx with ⟨⟨⟩⟩ | hx
      · exact hnew hsl rfl
      · cases hx
    · obtain ⟨_, _, rfl⟩ := hbegin
      rcases hx with hx | ⟨⟨⟩⟩
      · cases hx
      · exact hnew hsl rfl
    · simp only [Pc.carried, Prod.mk.injEq] at hnone
      rw [hnone.2.1, hnone.2.2.2.1] at hx
      rcases hx with hx | hx <;> cases hx
  · have hw := h.windows p old x hold (hx.imp htake hpeek)
    refine { hw with previous := ?_ }
    have hprev := hw.previous
    unfold World.Alive at hprev ⊢
    rcases hf.moved.clock with hc | ⟨now, hnow, hc⟩
    · rw [hc]; exact hprev
    · have hin : unix now < x.1.previousKey.windowStart + x.1.ttlSec := by
        obtain ⟨ht, hk⟩ := (htime now hnow).2 p (h.born hold) _ hold
        rcases hx with hx | hx
        · exact ht x (htake hx)
        · exact hk x (hpeek hx)
      rw [hw.ttl] at hin
      rw [hc]
      exact max_lt hprev hin

theorem step_owed
    (hwindows : ∀ p pc x, s'.buffered.procs p = some ⟨0, pc⟩ →
      pc.take = some x ∨ pc.peek = some x → InWindow windowSec s'.buffered x.1)
    {p : ℕ} {pc : Pc} {x : SlidingWindow × ℤ} (hp : s'.buffered.procs p = some ⟨0, pc⟩)
    (hx : pc.take = some x) :
    s'.exact.get x.1.currentKey = s'.buffered.hits 0 x.1.currentKey + 1 := by
  rw [hf.exact]
  have halive := alive_of_moved hf.moved (hwindows p pc x hp (.inl hx)).current
  rcases hf.moved.window_from hp (.inl hx) with ⟨rfl, hb⟩ | ⟨old, hold, htake, -⟩
  · -- the INCR of a Take that begins, and its hit to come
    rcases hb.carried with ⟨k', limit, win, now, sl, rfl, hsl, rfl⟩ |
      ⟨_, _, _, _, _, _, _, rfl⟩ | hnone
    · cases hx
      have hidle := hbegin.idle hb
      have hsettled := h.settled _ halive fun q qc y hq hy =>
        absurd hy (h.not_take_of_idle hidle hq)
      have hget : (s.follow (.take 0 k' limit win now)).exact.get sl.currentKey =
          s.exact.get sl.currentKey + 1 := by
        dsimp only [Pair.follow]
        unfold Pair.call
        rw [hsl]
        exact (get_takeExact limit).trans (congrArg _ (if_pos rfl))
      rcases hf.moved.hits with ⟨hhits, _⟩ | ⟨_, _, _, _, _, _, _, ha, _⟩
      · rw [hget, hsettled, hhits]
      · cases ha
    · cases hx
    · simp only [Pc.carried, Prod.mk.injEq] at hnone
      rw [hnone.2.1] at hx
      cases hx
  · have howed := h.owed p old x hold (htake hx)
    rcases hf.moved.hits with ⟨hhits, _⟩ | ⟨q, inp, sl, limit, cur, previous, ans, rfl, hq, hq', _⟩
    · rw [hhits]
      rcases Pair.follow_get (s := s) (a := a) x.1.currentKey with hget | ⟨_, _, _, _, _, _, rfl, _⟩
      · rw [hget]; exact howed
      · exact absurd (htake hx) (h.not_take_of_idle hbegin.1 hold)
    · rw [h.hit_by hq hq' hold (Pc.take_active (htake hx)) hp] at hx
      cases hx

theorem step_settled {k : WindowKey} (hk : s'.buffered.Alive windowSec k)
    (hnone : ∀ p pc x, s'.buffered.procs p = some ⟨0, pc⟩ → pc.take = some x → x.1.currentKey ≠ k) :
    s'.exact.get k = s'.buffered.hits 0 k := by
  have halive := alive_of_moved hf.moved hk
  rw [hf.exact]
  rcases hf.moved.hits with ⟨hhits, hnohit⟩ |
    ⟨q, inp, sl, limit, cur, previous, ans, rfl, hq, hq', hhits⟩
  · rw [hhits]
    rcases Pair.follow_get (s := s) (a := a) k with
      hget | ⟨i, key', lim, win, now, sl, rfl, hsl, hget⟩
    · rw [hget]
      refine h.settled k halive ?_
      intro p pc x hp hx
      -- a Take on the key is still one after the step
      rcases hf.moved.proc_from hp (ne_of_lt (h.born hp)) with hstay | ⟨pc', hp', hmove⟩
      · exact hnone p pc x hstay hx
      · rcases hmove.carried with heq | ⟨inp, t, l, next, evs, ha, rfl, hpm, rfl⟩
        · simp only [Pc.carried, Prod.mk.injEq] at heq
          exact hnone p pc' x hp' (heq.2.1.trans hx)
        · rcases hpm.keeps_take hx (h.healthy.calls p _ (Nat.zero_le p) hp) with
            hkeep | ⟨sl, limit, cur, previous, rfl⟩
          · exact hnone p _ x hp' hkeep
          · exact absurd hp (hnohit p inp sl limit cur previous ha)
    · obtain rfl : i = 0 := Subsingleton.elim _ _
      have hne : sl.currentKey ≠ k := hnone _ _ (sl, lim) (hf.moved.took_proc hsl) rfl
      rw [hget, if_neg hne, add_zero]
      exact h.settled k halive fun q qc y hq hy => absurd hy (h.not_take_of_idle hbegin.1 hq)
  · rw [hhits]
    by_cases hcur : sl.currentKey = k
    · subst hcur
      rw [if_pos rfl]
      exact h.owed q _ (sl, limit) hq rfl
    · rw [if_neg hcur, add_zero]
      refine h.settled k halive ?_
      intro p pc x hp hx hxk
      obtain rfl := h.alone _ _ _ _ hp hq (Pc.take_active hx) rfl
      rw [hp] at hq
      cases hq
      cases hx
      exact hcur hxk

theorem step_calls
    (hwindows : ∀ p pc x, s'.buffered.procs p = some ⟨0, pc⟩ →
      pc.take = some x ∨ pc.peek = some x → InWindow windowSec s'.buffered x.1)
    {p : ℕ} {pc : Pc} (hp : s'.buffered.procs p = some ⟨0, pc⟩) :
    Agrees (s'.answers p) (s'.buffered.hits 0) pc := by
  -- a call that was there: it agreed with the hits counted before the step
  have hkept : ∀ old, s.buffered.procs p = some ⟨0, old⟩ →
      Agrees (s.answers p) (s.buffered.hits 0) pc →
      Agrees (s'.answers p) (s'.buffered.hits 0) pc := by
    intro old hold hagree
    rw [hf.answers, Pair.follow_answers (ne_of_lt (h.born hold))]
    rcases hf.moved.hits with ⟨hhits, _⟩ | ⟨q, inp, sl, limit, cur, previous, ans, rfl, hq, hq', _⟩
    · rw [funext hhits]; exact hagree
    · by_cases hpc : pc.returned = false
      · rcases hf.moved.active hp hpc with ⟨_, hb⟩ | ⟨old', hold', hactive⟩
        · cases hb
        · rw [h.hit_by hq hq' hold' hactive hp] at hagree ⊢
          exact hagree.counted rfl rfl
      · refine hagree.counted ?_ ?_
        · exact Option.eq_none_iff_forall_ne_some.mpr fun x hx => hpc (Pc.take_active hx)
        · exact Option.eq_none_iff_forall_ne_some.mpr fun x hx => hpc (Pc.peek_active hx)
  rcases hf.moved.proc hp with hold | ⟨rfl, hb⟩ | ⟨old, hold, hmove⟩
  · exact hkept pc hold (h.calls p pc hold)
  · have hidle := hbegin.idle hb
    -- both windows of a call that begins are settled
    have hread : ∀ x, pc.take = some x ∨ pc.peek = some x →
        s.exact.get x.1.currentKey = s'.buffered.hits 0 x.1.currentKey ∧
          s.exact.get x.1.previousKey = s'.buffered.hits 0 x.1.previousKey := by
      intro x hx
      have hw := hwindows _ pc x hp hx
      have hsettled : ∀ k, s'.buffered.Alive windowSec k →
          s.exact.get k = s'.buffered.hits 0 k := by
        intro k hk
        rcases hf.moved.hits with ⟨hhits, _⟩ | ⟨_, _, _, _, _, _, _, rfl, _⟩
        · rw [hhits]
          exact h.settled k (alive_of_moved hf.moved hk)
            fun q qc y hq hy => absurd hy (h.not_take_of_idle hidle hq)
        · cases hb
      exact ⟨hsettled _ hw.current, hsettled _ hw.previous⟩
    have hans : ∀ {key window now exactly sl}, slidingAt key window now = .ok sl →
        (s.call key window now exactly).answers s.buffered.next = some (exactly sl).2 := by
      intro key window now exactly sl hsl
      unfold Pair.call
      rw [hsl]
      exact update_self ..
    rw [hf.answers]
    rcases hb.carried with ⟨k', limit, win, now, sl, rfl, hsl, rfl⟩ |
      ⟨k', limit, win, now, sl, rfl, hsl, rfl⟩ | hnone
    · obtain ⟨hcur, hprev⟩ := hread (sl, limit) (.inl rfl)
      have hw := hwindows _ _ (sl, limit) hp (.inl rfl)
      have hne : sl.currentKey ≠ sl.previousKey := by
        intro heq
        have h₁ : sl.previousKey.windowStart = sl.currentKey.windowStart - windowSec := hw.start
        have h₂ := hw.pos
        rw [← heq] at h₁
        omega
      refine ⟨fun _ hx => (nomatch hx), ?_, fun _ _ _ _ hx => (nomatch hx),
        fun _ _ hx => (nomatch hx), fun _ _ _ hx => (nomatch hx)⟩
      rintro sl' limit' ⟨⟩
      rw [← hcur, ← hprev, ← takeExact_answer hne]
      exact hans hsl
    · obtain ⟨hcur, hprev⟩ := hread (sl, limit) (.inr rfl)
      refine ⟨fun _ hx => (nomatch hx), fun _ _ hx => (nomatch hx), fun _ _ _ hx => (nomatch hx),
        ?_, fun _ _ _ hx => (nomatch hx)⟩
      rintro sl' limit' ⟨⟩
      rw [← hcur, ← hprev]
      exact hans hsl
    · exact .nothing hnone
  · refine hkept old hold ?_
    rcases hmove.carried with heq | ⟨inp, t, l, next, evs, _, rfl, hpm, rfl⟩
    · exact (h.calls p old hold).same heq
    · exact hpm.agrees hold (h.reads hold) (h.calls p _ hold)

end Step

theorem step_act (h : Refines windowSec s) (hsec : windowSec = window / second)
    (hseq : s.Sequential key window (.act a)) (hstep : s.buffered.step a = some s'.buffered)
    (hf : s.Followed s' a) : Refines windowSec s' := by
  obtain ⟨hbegin, hup, htime⟩ := hseq
  have hwindows : ∀ p pc x, s'.buffered.procs p = some ⟨0, pc⟩ →
      pc.take = some x ∨ pc.peek = some x → InWindow windowSec s'.buffered x.1 :=
    fun _ _ _ => h.step_windows hf hbegin hsec htime
  exact
    { ledger := h.ledger.step hstep
      healthy := h.healthy.step hf.moved hup
      asked := h.step_asked hf hbegin hsec
      alone := fun _ _ _ _ => h.step_alone hf hbegin
      tracks := fun k hk =>
        (h.tracks k (hf.moved.fresh hk)).step h.ledger hf.moved (h.nothingOutdated k) hk
      windows := hwindows
      settled := fun _ => h.step_settled hf hbegin
      owed := fun _ _ _ => h.step_owed hf hbegin hwindows
      calls := fun _ _ => h.step_calls hf hbegin hwindows }

theorem step_lose {k : WindowKey} {now : ℕ} (h : Refines windowSec s) (htime : s.InTime now)
    (hk : k.windowStart + 2 * windowSec ≤ unix now) :
    Refines windowSec { s with exact := s.exact.lose k, buffered := s.buffered.reading now } := by
  have hclock : (s.buffered.reading now).clock = unix now := max_eq_right htime.1
  have hback : ∀ k', (s.buffered.reading now).Alive windowSec k' →
      s.buffered.Alive windowSec k' ∧ k' ≠ k := by
    intro k' hk'
    unfold World.Alive at hk' ⊢
    rw [hclock] at hk'
    refine ⟨lt_of_le_of_lt htime.1 hk', ?_⟩
    rintro rfl
    omega
  have hwindows : ∀ p pc x, s.buffered.procs p = some ⟨0, pc⟩ →
      pc.take = some x ∨ pc.peek = some x → InWindow windowSec (s.buffered.reading now) x.1 := by
    intro p pc x hp hx
    have hw := h.windows p pc x hp hx
    refine { hw with previous := ?_ }
    unfold World.Alive
    rw [hclock, ← hw.ttl]
    obtain ⟨htake, hpeek⟩ := htime.2 p (h.born hp) _ hp
    exact hx.elim (htake x) (hpeek x)
  refine ⟨h.ledger.reading now, ⟨h.healthy.unfaulted, h.healthy.stored, h.healthy.calls⟩, h.asked,
    h.alone, ?_, hwindows, ?_, ?_, h.calls⟩
  · intro k' hf
    have ht := h.tracks k' fun t ht => lt_of_le_of_lt (le_max_left _ _) (hf t ht)
    exact ⟨ht.stored, ht.landed, ht.known⟩
  · intro k' hk' hnone
    obtain ⟨halive, hne⟩ := hback k' hk'
    exact (Store.get_lose_of_ne hne).trans (h.settled k' halive hnone)
  · intro p pc x hp hx
    obtain ⟨_, hne⟩ := hback _ (hwindows p pc x hp (.inl hx)).current
    exact (Store.get_lose_of_ne hne).trans (h.owed p pc x hp hx)

theorem step {x : PairAction} (h : Refines windowSec s) (hsec : windowSec = window / second)
    (hseq : s.Sequential key window x) (hstep : s.step windowSec x = some s') :
    Refines windowSec s' := by
  cases x with
  | act a =>
    obtain ⟨w, hw, rfl⟩ := Option.map_eq_some_iff.mp hstep
    exact h.step_act hsec hseq hw ⟨.of_step hw, rfl, rfl⟩
  | lose k now =>
    unfold Pair.step at hstep
    dsimp only at hstep
    split at hstep
    next hk =>
      cases hstep
      exact h.step_lose hseq hk
    · cases hstep

theorem init {limiter : Limiter} (hnew : ∃ rate, 0 < rate ∧ Limiter.new rate = some limiter) :
    Refines windowSec (Pair.init limiter) := by
  obtain ⟨rate, hpos, hrate⟩ := hnew
  have hempty : limiter.windows = fun _ => none := (Limiter.new_empty hrate).1
  have hnone : ∀ p i pc, (Pair.init limiter).buffered.procs p ≠ some ⟨i, pc⟩ := by
    intro p i pc hp
    cases hp
  refine ⟨ledgerInv_init fun _ => ⟨rate, hpos, hrate⟩, ⟨fun q pc hq => absurd hq (hnone q 0 pc), ?_,
    fun q pc _ hq => absurd hq (hnone q 0 pc)⟩, fun k t ht => (nomatch ht),
    fun p q pc qc hp => absurd hp (hnone p 0 pc), ?_, fun p pc x hp => absurd hp (hnone p 0 pc),
    fun _ _ _ => rfl, fun p pc x hp => absurd hp (hnone p 0 pc),
    fun p pc hp => absurd hp (hnone p 0 pc)⟩
  · exact (Limiter.new_silent hrate).2.1
  · intro k _
    refine ⟨fun p pc v hp => absurd hp (hnone p 0 pc),
      fun p pc v hp => absurd hp (hnone p 0 pc), ?_⟩
    intro j hj
    have hj : limiter.windows k = some j := hj
    rw [hempty] at hj
    cases hj

end Refines

end MiddlewareUtils.WindowCounter
