import MiddlewareUtils.Proofs.BucketRefill
import MiddlewareUtils.Proofs.StoresAgree

/-!
# What a refund leaves behind

A refused call refills the bucket, caps it, takes a token, finds the wait
too long and puts the token back. In the bucket nothing of that is left but
the refill. Refilling is the same in one step as in two (`bring_bring`), so
the bucket a refused call stores and the one it found become equal at every
later reading, and whatever is computed from there on is equal as well. A
run from which refused calls are deleted, any of them, is the old run
without them.

What the caller is told is another matter. `consumeOne` refuses by comparing
the wait with `maxDelay.Microseconds()`, in microseconds; `Allow` says
`allowed` by comparing `Duration(wait)` with `maxDelay`, in nanoseconds, and
each comparison truncates one side. Both agree on a kept call. A refused one
whose wait is longer than the whole microseconds of `maxDelay` but not by a
nanosecond of `maxDelay` itself is reported as allowed: the caller is sent
on and no token was taken for it (`refunded_yet_allowed`), so the next
caller at that instant is told the same. At the other end a wait of 2⁶³ ns
or more, which a rate below 1.1e-10 asks for, is no `Duration`: it turns
negative and is reported as allowed too. `Apart` is what is left, and on it
the two comparisons agree; everywhere else they do not.
-/

namespace MiddlewareUtils.TokenBucket

namespace ClockConfig

/-- The bucket as a reading at `t` finds it: refilled and up to date. -/
def bring (c : ClockConfig) (b : Bucket) (t : ℤ) : Bucket :=
  ⟨refill b c.limitPerMicro c.burst t, max b.last t⟩

/-- How long until the bucket can give a token, in microseconds. -/
def waitNeeded (c : ClockConfig) (b : Bucket) (t : ℤ) : ℚ :=
  (1 - refill b c.limitPerMicro c.burst t) / c.limitPerMicro

/-- A wait both comparisons put on the same side of `maxDelay`: within its
whole microseconds, or beyond it by a nanosecond and still a `Duration`. -/
def Apart (c : ClockConfig) (waitMicro : ℚ) : Prop :=
  waitMicro ≤ c.maxDelayMicro ∨
    (c.maxDelay + 1 : ℚ) ≤ waitMicro * microsecond ∧ waitMicro * microsecond < int64Limit

end ClockConfig

variable {c : AcceptedClock} {b b' : Bucket} {t t' : ℤ}

/-! ## A refusal is a refill -/

theorem bring_bring (hle : t ≤ t') : c.bring (c.bring b t) t' = c.bring b t' := by
  have hr := c.limitPerMicro_pos
  have hlast : max (max b.last t) t' = max b.last t' := by omega
  have hel : (0 : ℚ) ≤ ((max b.last t' - max b.last t : ℤ) : ℚ) := by
    exact_mod_cast (by omega : (0 : ℤ) ≤ max b.last t' - max b.last t)
  simp only [ClockConfig.bring, refill_eq, hlast, Bucket.mk.injEq, and_true]
  -- The cap of the first refill is no tighter than the cap of the second.
  have hgain := mul_nonneg hr.le hel
  push_cast at hgain ⊢
  rw [min_add, ← min_assoc, min_eq_left (by linarith : (c.burst : ℚ) ≤ c.burst + _)]
  congr 1
  ring

theorem consume_of_bring (h : c.bring b t = c.bring b' t) : c.consume b t = c.consume b' t := by
  obtain ⟨hrefill, hlast⟩ := Bucket.mk.inj h
  have hpersist : (if b.last > t then b.last else t) = if b'.last > t then b'.last else t := by
    have hmax : ∀ x : ℤ, (if x > t then x else t) = max x t := fun x => by
      split <;> omega
    rw [hmax, hmax, hlast]
  simp only [ClockConfig.consume, consumeOne, kept, hrefill, hpersist]

theorem consume_of_refunded (h : (c.consume b t).keptToken = false) :
    (c.consume b t).answer.bucket = c.bring b t := by
  have htokens := consumeOne_of_refunded h
  have hlast := consume_last (c := c) (b := b) (t := t)
  cases hbucket : (c.consume b t).answer.bucket with
  | mk tokens last =>
    rw [hbucket] at hlast
    rw [show consumeOne b _ _ t _ = (c.consume b t).answer from rfl, hbucket] at htokens
    rw [ClockConfig.bring, ← hlast, ← htokens]

/-! ## Deleting refused calls -/

/-- What is not marked. -/
def unmarked {α : Type*} (xs : List (α × Bool)) : List α := (xs.filter fun x => !x.2).map Prod.fst

theorem consumeAll_unmarked {marked : List (ℤ × Bool)} (hfrom : ∀ x ∈ marked, t ≤ x.1)
    (hclock : marked.Pairwise fun x y => x.1 ≤ y.1)
    (hrefused : ∀ x ∈ (c.consumeAll b (marked.map Prod.fst)).zip (marked.map Prod.snd),
      x.2 = true → x.1.keptToken = false)
    (halike : ∀ T, t ≤ T → c.bring b T = c.bring b' T) :
    c.consumeAll b' (unmarked marked) =
        unmarked ((c.consumeAll b (marked.map Prod.fst)).zip (marked.map Prod.snd)) ∧
      ∀ T, t ≤ T → (∀ x ∈ marked, x.1 ≤ T) →
        c.bring (c.bucketAfter b' (unmarked marked)) T =
          c.bring (c.bucketAfter b (marked.map Prod.fst)) T := by
  induction marked generalizing b b' t with
  | nil => exact ⟨rfl, fun T hT _ => (halike T hT).symm⟩
  | cons x marked ih =>
    obtain ⟨now, mark⟩ := x
    obtain ⟨hnext, hsorted⟩ := List.pairwise_cons.mp hclock
    have ht : t ≤ now := hfrom (now, mark) List.mem_cons_self
    have hrest : ∀ y ∈ (c.consumeAll (c.consume b now).answer.bucket
        (marked.map Prod.fst)).zip (marked.map Prod.snd), y.2 = true → y.1.keptToken = false :=
      fun y hy => hrefused y (List.mem_cons_of_mem _ hy)
    cases mark with
    | true =>
      have hout := hrefused (c.consume b now, true) List.mem_cons_self rfl
      have hback : ∀ T, now ≤ T →
          c.bring (c.consume b now).answer.bucket T = c.bring b' T := by
        intro T hT
        rw [consume_of_refunded hout, bring_bring hT, halike T (ht.trans hT)]
      obtain ⟨hcalls, hafter⟩ := ih hnext hsorted hrest hback
      refine ⟨hcalls, fun T _ hT => ?_⟩
      have hnow := hT (now, true) List.mem_cons_self
      exact hafter T hnow fun y hy => hT y (List.mem_cons_of_mem _ hy)
    | false =>
      have hsame : c.consume b now = c.consume b' now := consume_of_bring (halike now ht)
      have hback : ∀ T, now ≤ T → c.bring (c.consume b now).answer.bucket T =
          c.bring (c.consume b' now).answer.bucket T := by
        intro T _
        rw [hsame]
      obtain ⟨hcalls, hafter⟩ := ih hnext hsorted hrest hback
      refine ⟨?_, fun T _ hT => ?_⟩
      · exact congrArg₂ List.cons hsame.symm hcalls
      · have hnow := hT (now, false) List.mem_cons_self
        exact hafter T hnow fun y hy => hT y (List.mem_cons_of_mem _ hy)

/-- The answers of the calls that stay are what they were, and the bucket
they leave is the same to every later reading. -/
theorem refunds_leave_no_trace (c : AcceptedClock) (b : Bucket) (marked : List (ℤ × Bool))
    (hclock : marked.Pairwise fun x y => x.1 ≤ y.1)
    (hrefused : ∀ x ∈ (c.consumeAll b (marked.map Prod.fst)).zip (marked.map Prod.snd),
      x.2 = true → x.1.keptToken = false) :
    c.consumeAll b (unmarked marked) =
        unmarked ((c.consumeAll b (marked.map Prod.fst)).zip (marked.map Prod.snd)) ∧
      ∀ T, (∀ x ∈ marked, x.1 ≤ T) →
        c.bring (c.bucketAfter b (unmarked marked)) T =
          c.bring (c.bucketAfter b (marked.map Prod.fst)) T := by
  cases marked with
  | nil => exact ⟨rfl, fun _ _ => rfl⟩
  | cons x marked =>
    have hfrom : ∀ y ∈ x :: marked, x.1 ≤ y.1 := by
      intro y hy
      rcases List.mem_cons.mp hy with rfl | hy
      · exact le_refl _
      · exact (List.pairwise_cons.mp hclock).1 y hy
    obtain ⟨hcalls, hafter⟩ := consumeAll_unmarked hfrom hclock hrefused fun _ _ => rfl
    exact ⟨hcalls, fun T hT => hafter T (hT x List.mem_cons_self) hT⟩

/-- Five calls in a second, two of them refused, and one of those deleted. -/
theorem refunds_leave_no_trace_oneToken :
    ((oneTokenClock.consumeAll (oneTokenClock.full 0)
      [0, 1, 500000, 600000, 1000000]).map (·.keptToken)) = [true, true, false, false, true] ∧
    oneTokenClock.consumeAll (oneTokenClock.full 0) [0, 1, 600000, 1000000] =
      unmarked ((oneTokenClock.consumeAll (oneTokenClock.full 0)
        [0, 1, 500000, 600000, 1000000]).zip [false, false, true, false, false]) :=
  ⟨by decide +kernel,
    (refunds_leave_no_trace oneTokenClock (oneTokenClock.full 0)
      [(0, false), (1, false), (500000, true), (600000, false), (1000000, false)]
      (by decide +kernel) (by decide +kernel)).1⟩

/-! ## What the caller is told -/

theorem kept_iff_waitNeeded :
    kept b c.limitPerMicro c.burst t c.maxDelayMicro = true ↔
      c.waitNeeded b t ≤ c.maxDelayMicro := by
  have hr := c.limitPerMicro_pos
  have hd : (0 : ℚ) ≤ c.maxDelayMicro := by exact_mod_cast c.maxDelayMicro_nonneg
  have hwait : -(refill b c.limitPerMicro c.burst t - 1) / c.limitPerMicro = c.waitNeeded b t := by
    rw [ClockConfig.waitNeeded, neg_sub]
  have hneg : refill b c.limitPerMicro c.burst t - 1 < 0 ↔ 0 < c.waitNeeded b t := by
    rw [ClockConfig.waitNeeded, lt_div_iff₀ hr, zero_mul, sub_neg, sub_pos]
  simp only [kept, hwait, hneg, Bool.not_eq_true', Bool.and_eq_false_iff, decide_eq_false_iff_not,
    not_lt, gt_iff_lt]
  constructor
  · rintro (h | h)
    · linarith
    · exact h
  · exact .inr

theorem waitDuration_consume :
    waitDuration (c.consume b t).answer.waitMicro = waitDuration (c.waitNeeded b t) := by
  have hr := c.limitPerMicro_pos
  have hwait : -(refill b c.limitPerMicro c.burst t - 1) / c.limitPerMicro = c.waitNeeded b t := by
    rw [ClockConfig.waitNeeded, neg_sub]
  simp only [ClockConfig.consume, consumeOne, hwait]
  by_cases hneg : refill b c.limitPerMicro c.burst t - 1 < 0
  · rw [if_pos hneg]
    split <;> rfl
  · have hle : c.waitNeeded b t ≤ 0 :=
      div_nonpos_of_nonpos_of_nonneg (by linarith) hr.le
    rw [if_neg hneg, waitDuration, waitDuration, if_pos (le_refl _), if_pos hle]

theorem maxDelayMicro_mul_le : (c.maxDelayMicro : ℚ) * microsecond ≤ c.maxDelay := by
  have h : c.maxDelayMicro * microsecond ≤ c.maxDelay := by
    rw [ClockConfig.maxDelayMicro, Int.tdiv_eq_ediv_of_nonneg c.bounds.2.2.1, microsecond]
    omega
  exact_mod_cast h

/-- What the caller is told of a wait: everything is allowed but the waits that
are beyond `maxDelay` by a nanosecond and still a `Duration`. -/
theorem allowedFromWait_iff {w : ℚ} :
    allowedFromWait (waitDuration w) c.maxDelay = true ↔
      w ≤ c.maxDelayMicro ∨
        ¬ ((c.maxDelay + 1 : ℚ) ≤ w * microsecond ∧ w * microsecond < int64Limit) := by
  have hms : (0 : ℚ) < microsecond := by norm_num [microsecond]
  have hdelay := c.bounds.2.2.1
  have hmicro : (0 : ℚ) ≤ c.maxDelayMicro := by exact_mod_cast c.maxDelayMicro_nonneg
  rw [allowedFromWait, decide_eq_true_eq, waitDuration]
  by_cases hw : w ≤ 0
  · rw [if_pos hw]
    exact ⟨fun _ => .inl (hw.trans hmicro), fun _ => hdelay⟩
  · rw [if_neg hw, toDuration]
    by_cases hfits : w * microsecond < int64Limit
    · rw [if_pos hfits, ← Int.lt_add_one_iff, Int.floor_lt]
      push_cast
      constructor
      · exact fun hlt => .inr fun hbeyond => absurd hbeyond.1 (not_le.mpr hlt)
      · rintro (hle | hnot)
        · have hwhole := mul_le_mul_of_nonneg_right hle hms.le
          have := hwhole.trans (maxDelayMicro_mul_le (c := c))
          linarith
        · exact not_le.mp fun hge => hnot ⟨hge, hfits⟩
    · rw [if_neg hfits]
      refine ⟨fun _ => .inr fun hbeyond => hfits hbeyond.2, fun _ => ?_⟩
      exact le_trans (by decide) hdelay

theorem consume_tokens :
    (c.consume b t).answer.bucket.tokens =
      refill b c.limitPerMicro c.burst t - if (c.consume b t).keptToken then 1 else 0 := by
  cases hk : (c.consume b t).keptToken with
  | true => exact (consumeOne_of_kept c.limitPerMicro_pos hk).1
  | false => rw [if_neg Bool.false_ne_true, sub_zero]; exact consumeOne_of_refunded hk

/-- A caller is told `allowed` exactly when a token was taken for it, if and
only if its wait is in neither gap between the two comparisons. In a gap the
call is refunded and allowed. -/
theorem allowed_iff_kept (c : AcceptedClock) (first : Buckets → String) (buckets : Buckets)
    (r : Request) (hctx : r.ctxErr = none) :
    let b := (Memory.entryFor c.toClockConfig first buckets r.key r.now).1.bucket
    let after := Memory.allow c.toClockConfig first buckets r
    let taken := kept b c.limitPerMicro c.burst (unixMicro r.now) c.maxDelayMicro
    let apart := c.Apart (c.waitNeeded b (unixMicro r.now))
    ∃ allowed wait, after.2 = .ok (allowed, wait) ∧
      (apart ↔ (allowed = true ↔ taken = true) ∧ (allowed = false ↔ taken = false)) ∧
      (¬ apart → allowed = true ∧ taken = false) ∧
      (after.1.lookup r.key).map (·.bucket.tokens) =
        some (refill b c.limitPerMicro c.burst (unixMicro r.now) - if taken then 1 else 0) := by
  intro b after taken apart
  have hafter : after = ((Memory.entryFor c.toClockConfig first buckets r.key r.now).2.insert r.key
      ⟨(c.consume b (unixMicro r.now)).answer.bucket, r.now + c.ttl⟩,
      .ok (allowedFromWait (waitDuration (c.consume b (unixMicro r.now)).answer.waitMicro)
        c.maxDelay, waitDuration (c.consume b (unixMicro r.now)).answer.waitMicro)) := by
    simp only [after, Memory.allow, hctx]
    rfl
  have htaken : taken = true ↔ c.waitNeeded b (unixMicro r.now) ≤ c.maxDelayMicro :=
    kept_iff_waitNeeded
  refine ⟨_, _, congrArg Prod.snd hafter, ?_, ?_, ?_⟩
  · rw [waitDuration_consume, ← Bool.not_eq_true, ← Bool.not_eq_true, not_iff_not, and_self,
      allowedFromWait_iff, htaken]
    constructor
    · rintro (hle | hbeyond)
      · exact ⟨fun _ => hle, .inl⟩
      · exact ⟨fun h => h.resolve_right (not_not_intro hbeyond), .inl⟩
    · intro hagree
      by_contra hgap
      obtain ⟨hlong, hbeyond⟩ := not_or.mp hgap
      exact hlong (hagree.mp (.inr hbeyond))
  · intro hgap
    obtain ⟨hlong, hbeyond⟩ := not_or.mp hgap
    rw [waitDuration_consume, allowedFromWait_iff, ← Bool.not_eq_true, htaken]
    exact ⟨.inr hbeyond, hlong⟩
  · rw [hafter, AList.lookup_insert, Option.map_some, consume_tokens]
    rfl

theorem allowed_iff_kept_brief :
    ∃ allowed wait, (Memory.allow briefClock.toClockConfig (fun _ => "a") ∅
        ⟨"a", 0, none⟩).2 = .ok (allowed, wait) ∧ allowed = true := by
  obtain ⟨allowed, wait, h, hiff, _⟩ :=
    allowed_iff_kept briefClock (fun _ => "a") ∅ ⟨"a", 0, none⟩ rfl
  exact ⟨allowed, wait, h, (hiff.mp (Or.inl (by decide +kernel))).1.mpr (by decide +kernel)⟩

/-- 800000 requests a second and a delay of a microsecond and a half. -/
def fastClock : AcceptedClock := ⟨⟨800000, 1, 1500, 1000000000⟩, by decide +kernel⟩

/-- One token in 10¹¹ seconds. -/
def slowClock : AcceptedClock := ⟨⟨1 / 100000000000, 1, 0, 1000000000⟩, by decide +kernel⟩

/-- The second call of an instant is told to go on after `wait`, its token goes
back and the bucket stays as it was. -/
def AdmitsRefunded (c : AcceptedClock) (wait : ℤ) : Prop :=
  let r : Request := ⟨"a", 0, none⟩
  let first : Buckets → String := fun _ => "a"
  let buckets := (Memory.allow c.toClockConfig first ∅ r).1
  let b := (Memory.entryFor c.toClockConfig first buckets "a" 0).1.bucket
  (Memory.allow c.toClockConfig first buckets r).2.toOption = some (true, wait) ∧
    kept b c.limitPerMicro c.burst (unixMicro 0) c.maxDelayMicro = false ∧
    Memory.stored (Memory.allow c.toClockConfig first buckets r).1 "a" = Memory.stored buckets "a"

/-- A wait of 1250 ns is more than one microsecond, so the token goes back, and
no more than 1500 ns, so the call goes on. One of 10²⁰ ns is no `Duration`. -/
theorem refunded_yet_allowed :
    AdmitsRefunded fastClock 1250 ∧ AdmitsRefunded slowClock (-int64Limit) := by
  unfold AdmitsRefunded
  decide +kernel

end MiddlewareUtils.TokenBucket
