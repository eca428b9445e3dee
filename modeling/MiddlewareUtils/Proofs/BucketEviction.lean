import MiddlewareUtils.Proofs.BucketConforms
import MiddlewareUtils.Proofs.StoresAgree

/-!
# What an eviction costs

The in-process store holds `maxMemorySources` buckets. When it is full a new
key drops somebody's bucket, live or not, and that key starts over with a
full one; so does a key whose entry expired. Whoever can make the store drop
buckets therefore gets tokens for it. They are bounded here: over any run of
calls, on any keys and with any evictions, the calls on one key take no more
tokens than its rate yields in the time that passes, and a burst with the
longest queue for every time its bucket was made. A call takes a live bucket
from at most one other key, and only where the store is full; it never holds
more than its cap.

The potential is the backlog of `Proofs.BucketConforms`. A call that keeps its
token raises it by one, and what the other keys do can only take the bucket
away. A bucket that is made anew starts `burst` below the clock, and the one
before it was at most `maxDelay` ahead of it.
-/

namespace MiddlewareUtils.TokenBucket

open Lib

/-- A store, the tokens the calls on one key have kept, and how often its
bucket was made. -/
structure Watched where
  buckets : Buckets
  kept : ℕ
  seeds : ℕ

def Watched.allow (c : ClockConfig) (first : Buckets → String) (key : String) (s : Watched)
    (r : Request) : Watched :=
  let buckets := (Memory.allow c first s.buckets r).1
  if r.key = key ∧ r.ctxErr = none then
    let found := liveAt s.buckets r.now key
    let call := c.consume (startOf c r.now found) (unixMicro r.now)
    ⟨buckets, s.kept + if call.keptToken = true then 1 else 0,
      s.seeds + if found.isNone = true then 1 else 0⟩
  else { s with buckets }

/-! ## The map -/

section Map

variable {m : Buckets} {key a : String} {e : MemEntry} {now : ℤ}

theorem lookup_of_liveAt (h : liveAt m now a = some e) : m.lookup a = some e :=
  (Option.filter_eq_some_iff.mp h).1

theorem dropOne_eq {first : Buckets → String} :
    Memory.dropOne first now m = evict (Memory.live now) maxMemorySources first m := rfl

/-- A call makes no entry but its own. -/
theorem lookup_of_entryFor {c : ClockConfig} {first : Buckets → String} (ha : a ≠ key)
    (h : (Memory.entryFor c first m key now).2.lookup a = some e) : m.lookup a = some e := by
  unfold Memory.entryFor at h
  dsimp only at h
  generalize hleft : (if (m.lookup key).any (!Memory.live now ·) then m.erase key else m) = left
    at h
  have hexpired : ∀ {e}, left.lookup a = some e → m.lookup a = some e := by
    intro e h
    rw [← hleft] at h
    split at h
    · exact lookup_of_erase h
    · exact h
  split at h
  · exact hexpired h
  · dsimp only at h
    rw [AList.lookup_insert_ne ha] at h
    split at h
    · rw [dropOne_eq] at h
      exact hexpired (lookup_of_keep (lookup_of_evict h))
    · exact hexpired (lookup_of_keep h)

theorem bucket_entryFor (c : ClockConfig) (first : Buckets → String) :
    (Memory.entryFor c first m key now).1.bucket = startOf c now (liveAt m now key) := by
  unfold Memory.entryFor liveAt
  dsimp only
  split
  next hfound => rw [hfound]; rfl
  next hfound => rw [hfound]; rfl

end Map

/-! ## Runs -/

/-- The tokens one bucket may give beyond its rate. -/
def ClockConfig.room (c : ClockConfig) : ℚ := c.burst + c.limitPerMicro * c.maxDelayMicro

/-- What the calls have taken since `t₀` is in the backlog of the bucket. -/
structure Backed (c : ClockConfig) (t₀ t : ℤ) (kept seeds : ℕ) (b : Bucket) : Prop where
  inv : BucketInv c b
  last : b.last ≤ t
  kept : (kept : ℚ) ≤ backlog c b - c.limitPerMicro * t₀ + seeds * c.room -
    c.limitPerMicro * c.maxDelayMicro

variable {c : AcceptedClock} {t₀ t : ℤ} {kept seeds : ℕ} {b : Bucket}

/-- A bucket is at most `maxDelay` ahead of the clock. -/
theorem Backed.total (h : Backed c.toClockConfig t₀ t kept seeds b) :
    (kept : ℚ) ≤ c.limitPerMicro * (t - t₀) + seeds * c.room := by
  have hr := c.limitPerMicro_pos
  have hlast : (b.last : ℚ) ≤ t := by exact_mod_cast h.last
  have hkept := h.kept
  have hlow := h.inv.low
  rw [backlog] at hkept
  nlinarith

theorem Backed.full (h : (kept : ℚ) ≤ c.limitPerMicro * (t - t₀) + seeds * c.room) :
    Backed c.toClockConfig t₀ t kept (seeds + 1) (c.full t) := by
  refine ⟨bucketInv_full t, le_refl t, h.trans (le_of_eq ?_)⟩
  rw [backlog, ClockConfig.full, ClockConfig.room]
  push_cast
  ring

theorem Backed.consume (h : Backed c.toClockConfig t₀ t kept seeds b) :
    Backed c.toClockConfig t₀ t (kept + if (c.consume b t).keptToken = true then 1 else 0) seeds
      (c.consume b t).answer.bucket := by
  refine ⟨consume_inv h.inv, (consume_last.trans (max_eq_right h.last)).le, ?_⟩
  have hkept := h.kept
  have hstep := backlog_consume (c := c) (b := b) (t := t)
  push_cast
  linarith

structure Paid (c : ClockConfig) (key : String) (t₀ t : ℤ) (s : Watched) : Prop where
  total : (s.kept : ℚ) ≤ c.limitPerMicro * (t - t₀) + s.seeds * c.room
  stored : ∀ e, s.buckets.lookup key = some e → Backed c t₀ t s.kept s.seeds e.bucket

variable {first : Buckets → String} {key : String} {s : Watched} {r : Request}

theorem Paid.later (h : Paid c.toClockConfig key t₀ t s) {t' : ℤ} (ht : t ≤ t') :
    Paid c.toClockConfig key t₀ t' s := by
  have hr := c.limitPerMicro_pos
  have htime : (t : ℚ) ≤ t' := by exact_mod_cast ht
  refine ⟨h.total.trans (by nlinarith), fun e he => ?_⟩
  obtain ⟨hi, hlast, hkept⟩ := h.stored e he
  exact ⟨hi, hlast.trans ht, hkept⟩

theorem lookup_allow_other (h : ¬ (r.key = key ∧ r.ctxErr = none)) {e : MemEntry}
    (he : (Memory.allow c.toClockConfig first s.buckets r).1.lookup key = some e) :
    s.buckets.lookup key = some e := by
  unfold Memory.allow at he
  split at he
  · exact he
  next hctx =>
    have hkey : key ≠ r.key := fun hk => h ⟨hk.symm, hctx⟩
    dsimp only at he
    rw [AList.lookup_insert_ne hkey] at he
    exact lookup_of_entryFor hkey he

theorem lookup_allow_own (hctx : r.ctxErr = none) :
    (Memory.allow c.toClockConfig first s.buckets r).1.lookup r.key =
      some ⟨(c.consume (startOf c.toClockConfig r.now (liveAt s.buckets r.now r.key))
        (unixMicro r.now)).answer.bucket, r.now + c.ttl⟩ := by
  simp only [Memory.allow, hctx, bucket_entryFor, AList.lookup_insert]
  rfl

theorem Paid.allow (h : Paid c.toClockConfig key t₀ t s) (ht : t ≤ unixMicro r.now) :
    Paid c.toClockConfig key t₀ (unixMicro r.now) (s.allow c.toClockConfig first key r) := by
  have hlater := h.later ht
  unfold Watched.allow
  dsimp only
  split
  next hmine =>
    obtain ⟨rfl, hctx⟩ := hmine
    have hstart : Backed c.toClockConfig t₀ (unixMicro r.now) s.kept
        (s.seeds + if (liveAt s.buckets r.now r.key).isNone = true then 1 else 0)
        (startOf c.toClockConfig r.now (liveAt s.buckets r.now r.key)) := by
      cases hfound : liveAt s.buckets r.now r.key with
      | none => exact .full hlater.total
      | some e => exact hlater.stored e (lookup_of_liveAt hfound)
    refine ⟨hstart.consume.total, fun e he => ?_⟩
    obtain rfl := Option.some.inj ((lookup_allow_own hctx).symm.trans he)
    exact hstart.consume
  next hmine =>
    exact ⟨hlater.total, fun e he => hlater.stored e (lookup_allow_other hmine he)⟩

theorem Paid.run {calls : List Request} {t₁ : ℤ} (h : Paid c.toClockConfig key t₀ t₁ s)
    (hclock : (t₁ :: (calls.map (unixMicro ·.now) ++ [t])).IsChain (· ≤ ·)) :
    Paid c.toClockConfig key t₀ t (calls.foldl (Watched.allow c.toClockConfig first key) s) := by
  induction calls generalizing s t₁ with
  | nil => exact h.later (List.isChain_cons_cons.mp hclock).1
  | cons r calls ih =>
    obtain ⟨hle, hrest⟩ := List.isChain_cons_cons.mp hclock
    exact ih (h.allow hle) hrest

/-- Over any calls between the readings `t₀` and `t`, on any keys, the calls
on one key keep at most what the rate yields, and a burst with the longest
queue for each time its bucket was made. -/
theorem evictions_bounded (c : AcceptedClock) (first : Buckets → String) (key : String) {t₀ t : ℤ}
    {calls : List Request}
    (hclock : (t₀ :: (calls.map (unixMicro ·.now) ++ [t])).IsChain (· ≤ ·)) :
    let s := calls.foldl (Watched.allow c.toClockConfig first key) ⟨∅, 0, 0⟩
    (s.kept : ℚ) ≤ c.limitPerMicro * (t - t₀) + s.seeds * c.room := by
  have hnew : Paid c.toClockConfig key t₀ t₀ ⟨∅, 0, 0⟩ := by
    refine ⟨by simp, fun e he => ?_⟩
    rw [AList.lookup_empty] at he
    cases he
  exact (hnew.run hclock).total

/-- The bucket of `"a"` expires between its two calls and is made twice. -/
theorem evictions_bounded_brief :
    let s := briefCalls.foldl (Watched.allow briefClock.toClockConfig (fun _ => "a") "a") ⟨∅, 0, 0⟩
    s.kept = 2 ∧ s.seeds = 2 ∧
      (s.kept : ℚ) ≤ briefClock.limitPerMicro * ((1500000 : ℤ) - (0 : ℤ)) +
        s.seeds * briefClock.room :=
  ⟨by decide +kernel, by decide +kernel,
    evictions_bounded briefClock (fun _ => "a") "a" (by decide +kernel)⟩

/-! ## The cap -/

/-- The live buckets of other keys are kept, but for one when the store is full. -/
def Spares (m m' : Buckets) (r : Request) : Prop :=
  ∃ victim, ∀ key e, key ≠ r.key → liveAt m r.now key = some e →
    (key = victim → size m < maxMemorySources) → m'.lookup key = some e

section Cap

variable {c : ClockConfig} {first : Buckets → String} {m : Buckets} {own key : String} {now : ℤ}
  {e : MemEntry}

theorem liveAt_dropExpired (h : liveAt m now key = some e) :
    liveAt (Memory.dropExpired now m) now key = some e := by
  rw [liveAt, Memory.dropExpired, lookup_keep]
  exact Option.filter_eq_some_iff.mpr ⟨h, (Option.filter_eq_some_iff.mp h).2⟩

theorem lookup_dropOne (h : liveAt m now key = some e)
    (hv : key ≠ first (Memory.dropExpired now m)) :
    (Memory.dropOne first now m).lookup key = some e := by
  have hlive := lookup_of_liveAt (liveAt_dropExpired h)
  unfold Memory.dropOne
  dsimp only
  split
  · exact hlive
  · rwa [AList.lookup_erase_ne hv]

theorem size_unless_expired :
    size (if (m.lookup own).any (!Memory.live now ·) then m.erase own else m) ≤ size m := by
  split
  · exact size_erase_le _ _
  · exact le_rfl

theorem entryFor_spares : ∃ victim, ∀ key e, key ≠ own → liveAt m now key = some e →
    (key = victim → size m < maxMemorySources) →
    (Memory.entryFor c first m own now).2.lookup key = some e := by
  unfold Memory.entryFor
  dsimp only
  have hsize := @size_unless_expired m own now
  have hkept : ∀ {key}, key ≠ own →
      (if (m.lookup own).any (!Memory.live now ·) then m.erase own else m).lookup key =
        m.lookup key := by
    intro key hkey
    split
    · exact AList.lookup_erase_ne hkey
    · rfl
  generalize (if (m.lookup own).any (!Memory.live now ·) then m.erase own else m) = left
    at hsize hkept ⊢
  refine ⟨first (Memory.dropExpired now (Memory.dropExpired now left)), fun key e hkey he hv => ?_⟩
  have hleft : liveAt left now key = some e := by rwa [liveAt, hkept hkey]
  split
  · exact lookup_of_liveAt hleft
  · dsimp only
    rw [AList.lookup_insert_ne hkey]
    split
    next hfull =>
      refine lookup_dropOne (liveAt_dropExpired hleft) fun hvictim => ?_
      exact absurd (hfull.trans ((size_keep_le _ _).trans hsize)) (not_le.mpr (hv hvictim))
    next => exact lookup_of_liveAt (liveAt_dropExpired hleft)

theorem allow_spares (r : Request) : Spares m (Memory.allow c first m r).1 r := by
  obtain ⟨victim, h⟩ := @entryFor_spares c first m r.key r.now
  refine ⟨victim, fun key e hkey he hv => ?_⟩
  unfold Memory.allow
  split
  · exact lookup_of_liveAt he
  · dsimp only
    rw [AList.lookup_insert_ne hkey]
    exact h key e hkey he hv

variable (hfirst : ∀ m : Buckets, m.keys ≠ [] → first m ∈ m.keys)
  (h : size m ≤ maxMemorySources)
include hfirst h

theorem size_entryFor : own ∈ (Memory.entryFor c first m own now).2 ∧
    size (Memory.entryFor c first m own now).2 ≤ maxMemorySources := by
  have hsize := (@size_unless_expired m own now).trans h
  unfold Memory.entryFor
  dsimp only
  split
  next e hfound =>
    obtain ⟨hfound, hlive⟩ := Option.filter_eq_some_iff.mp hfound
    rw [hfound, Option.any_some, hlive, Bool.not_true, if_neg Bool.false_ne_true]
    exact ⟨AList.lookup_isSome.mp (Option.isSome_of_eq_some hfound), h⟩
  next =>
    refine ⟨(AList.mem_insert _).mpr (.inl rfl), size_insert_le.trans (Nat.succ_le_of_lt ?_)⟩
    generalize (if (m.lookup own).any (!Memory.live now ·) then m.erase own else m) = left
      at hsize ⊢
    split
    · rw [dropOne_eq]
      exact size_evict_lt (by decide) hfirst ((size_keep_le _ _).trans hsize)
    next hroom => exact not_le.mp hroom

theorem size_allow (r : Request) : size (Memory.allow c first m r).1 ≤ maxMemorySources := by
  unfold Memory.allow
  split
  · exact h
  · obtain ⟨hmem, hsize⟩ := @size_entryFor c first m r.key r.now hfirst h
    exact (size_insert_of_mem hmem).trans_le hsize

end Cap

/-- The store never holds more than `maxMemorySources` buckets, and a call
takes a live bucket from one other key at most, when the store is full. -/
theorem sources_capped (c : ClockConfig) {first : Buckets → String}
    (hfirst : ∀ m : Buckets, m.keys ≠ [] → first m ∈ m.keys) (calls : List Request) (r : Request) :
    let m := calls.foldl (fun m r => (Memory.allow c first m r).1) ∅
    size m ≤ maxMemorySources ∧ Spares m (Memory.allow c first m r).1 r := by
  refine ⟨?_, allow_spares r⟩
  exact List.foldlRecOn (motive := fun m => size m ≤ maxMemorySources) calls _ (Nat.zero_le _)
    fun _ h r _ => size_allow hfirst h r

theorem sources_capped_brief :
    let first : Buckets → String := fun m => m.keys.headD ""
    let m := briefCalls.foldl (fun m r => (Memory.allow briefClock.toClockConfig first m r).1) ∅
    let r : Request := ⟨"c", 0, none⟩
    size m = 2 ∧ size m ≤ maxMemorySources ∧
      Spares m (Memory.allow briefClock.toClockConfig first m r).1 r := by
  refine ⟨by decide +kernel, sources_capped briefClock.toClockConfig (fun m hm => ?_) briefCalls _⟩
  cases hkeys : m.keys with
  | nil => exact absurd hkeys hm
  | cons key keys => exact List.mem_cons_self

end MiddlewareUtils.TokenBucket
