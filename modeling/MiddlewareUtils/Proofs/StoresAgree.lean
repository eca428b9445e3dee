import MiddlewareUtils.TokenBucket.Stores

/-!
# The in-process and the Redis store are one bucket

The comparison is a simulation between the two key spaces, read at the
instant the last call saw: a key has a live entry in the map exactly when
Redis still has its hash, and then the hash is the entry's fields in the
order HSET wrote them, with the entry's expiry. Later instants see less of
both, and the same less, since both sides drop a key when the clock reaches
the same instant; that is where readings that do not go back are needed, a
sweep of one call's being permanent on the Go side.

One call is then three facts. The script's arithmetic is `consumeOne`'s.
What the script does to the key space is a single update of its key. And
`entryFor` leaves every live entry alone, provided the map is below its cap,
which it is while fewer keys than that are in use at all.
-/

namespace MiddlewareUtils.TokenBucket

open Lib Function

variable {c : AcceptedClock} {first : Buckets → String}

theorem AcceptedClock.ttlSeconds_mul : c.ttlSeconds * second = c.ttl := by
  have h := Int.mul_tdiv_add_tmod c.ttl second
  rw [c.bounds.2.2.2.2, add_zero, mul_comm] at h
  exact h

/-! ## The script's arithmetic -/

theorem min_eq_ite_gt (x cap : ℚ) : min x cap = if x > cap then cap else x := by
  split
  next h => exact min_eq_right (le_of_lt h)
  next h => exact min_eq_left (not_lt.mp h)

theorem script_refill (b : Bucket) (limit burst : ℚ) (t : ℤ) :
    min (b.tokens + limit * ((t : ℚ) - if (t : ℚ) < b.last then (t : ℚ) else b.last)) burst =
      refill b limit burst t := by
  have hlast : (t : ℚ) - (if (t : ℚ) < b.last then (t : ℚ) else b.last) =
      ((t - (if t < b.last then t else b.last) : ℤ) : ℚ) := by
    push_cast
    simp only [Int.cast_lt]
  rw [hlast, min_eq_ite_gt]
  rfl

theorem script_persistLast (b : Bucket) (t : ℤ) :
    (if (t : ℚ) > b.last then (t : ℚ) else b.last) =
      (((if b.last > t then b.last else t : ℤ)) : ℚ) := by
  rcases lt_trichotomy b.last t with h | h | h
  · rw [if_pos (by exact_mod_cast h), if_neg (by omega)]
  · rw [h, if_neg (lt_irrefl _), if_neg (lt_irrefl _)]
  · rw [if_neg (not_lt.mpr (by exact_mod_cast le_of_lt h)), if_pos h]

theorem scriptConsume_eq (c : ClockConfig) (b : Bucket) (now : ℤ) :
    scriptConsume (Redis.argv c now) b.last b.tokens =
      let out := consumeOne b c.limitPerMicro c.burst (unixMicro now) c.maxDelayMicro
      ((out.bucket.last : ℚ), out.bucket.tokens, out.waitMicro) := by
  show scriptConsume ⟨c.limitPerMicro, c.burst, c.ttlSeconds, unixMicro now, c.maxDelayMicro⟩
    _ _ = _
  simp only [scriptConsume, consumeOne]
  rw [script_refill, script_persistLast]
  by_cases hneg : refill b c.limitPerMicro c.burst (unixMicro now) - 1 < 0
  · rw [if_pos hneg, if_pos hneg, mul_neg_one]
    by_cases hdelay : -(refill b c.limitPerMicro c.burst (unixMicro now) - 1) /
        c.limitPerMicro > (c.maxDelayMicro : ℚ)
    · rw [if_pos hdelay, if_pos hdelay, min_eq_ite_gt]
    · rw [if_neg hdelay, if_neg hdelay]
  · rw [if_neg hneg, if_neg hneg]

/-! ## The script's effect -/

def MemEntry.toHash (e : MemEntry) : Hash :=
  ⟨[("last", (e.bucket.last : ℚ)), ("tokens", e.bucket.tokens)], some (e.expireAt : ℚ)⟩

def startOf (c : ClockConfig) (now : ℤ) (e : Option MemEntry) : Bucket :=
  (e.map MemEntry.bucket).getD ⟨c.burst, unixMicro now⟩

def outOf (c : ClockConfig) (now : ℤ) (e : Option MemEntry) : Consumed :=
  consumeOne (startOf c now e) c.limitPerMicro c.burst (unixMicro now) c.maxDelayMicro

def leftBy (c : ClockConfig) (now : ℤ) (e : Option MemEntry) : MemEntry :=
  ⟨(outOf c now e).bucket, now + c.ttl⟩

theorem scriptBucket_hgetall {keys : Keys} {key : String} {e : Option MemEntry}
    (h : keys key = e.map MemEntry.toHash) (now : ℤ) :
    scriptBucket (Redis.argv c.toClockConfig now) (keys.hgetall key) =
      some (((startOf c.toClockConfig now e).last : ℚ),
        (startOf c.toClockConfig now e).tokens) := by
  cases e with
  | none =>
    have hget : keys.hgetall key = [] := by rw [Keys.hgetall, h]; rfl
    rw [hget]
    rfl
  | some e =>
    have hget : keys.hgetall key = [.text "last", .number e.bucket.last,
        .text "tokens", .number e.bucket.tokens] := by rw [Keys.hgetall, h]; rfl
    rw [hget]
    rfl

theorem hset_of_entry {keys : Keys} {key : String} {e : Option MemEntry}
    (h : keys key = e.map MemEntry.toHash) (last tokens : ℚ) :
    (keys.hset key last tokens) = update keys key
      (some ⟨[("last", last), ("tokens", tokens)], e.map fun e => (e.expireAt : ℚ)⟩) := by
  rw [Keys.hset, h]
  cases e with
  | none => rfl
  | some e => rfl

theorem allowScript_eq {keys : Keys} {key : String} {e : Option MemEntry}
    (h : keys key = e.map MemEntry.toHash) (now : ℤ) :
    allowScript keys key now (Redis.argv c.toClockConfig now) =
      (update keys key (some (leftBy c.toClockConfig now e).toHash),
        .ok [.text "true", .number (outOf c.toClockConfig now e).waitMicro,
          .number (outOf c.toClockConfig now e).bucket.tokens]) := by
  rw [allowScript, scriptBucket_hgetall h now]
  dsimp only
  rw [scriptConsume_eq]
  dsimp only
  rw [hset_of_entry h, Keys.expire, update_self, update_idem]
  have httl : (now : ℚ) + (Redis.argv c.toClockConfig now).ttl * second =
      ((now + c.ttl : ℤ) : ℚ) := by
    rw [← c.ttlSeconds_mul]
    push_cast
    rfl
  rw [httl]
  rfl

/-! ## The two key spaces at one instant -/

def liveAt (buckets : Buckets) (now : ℤ) (key : String) : Option MemEntry :=
  (buckets.lookup key).filter (Memory.live now)

/-- Redis has the hashes of the live entries, and nothing else. -/
def Agree (buckets : Buckets) (keys : Keys) (now : ℤ) : Prop :=
  ∀ key, keys.at now key = (liveAt buckets now key).map MemEntry.toHash

theorem toHash_live (e : MemEntry) (now : ℤ) :
    (e.toHash.expireAt.all fun x => decide ((now : ℚ) < x)) = Memory.live now e := by
  show decide ((now : ℚ) < (e.expireAt : ℚ)) = decide (now < e.expireAt)
  simp only [Int.cast_lt]

theorem map_toHash_filter (e : Option MemEntry) (now : ℤ) :
    ((e.map MemEntry.toHash).filter fun h => h.expireAt.all fun x => decide ((now : ℚ) < x)) =
      (e.filter (Memory.live now)).map MemEntry.toHash := by
  cases e with
  | none => rfl
  | some e =>
    rw [Option.map_some, Option.filter_some, Option.filter_some, toHash_live]
    split <;> rfl

theorem filter_live_filter {t now : ℤ} (hle : t ≤ now) (e : Option MemEntry) :
    (e.filter (Memory.live t)).filter (Memory.live now) = e.filter (Memory.live now) := by
  rw [Option.filter_filter]
  congr 1
  funext x
  simp only [Memory.live, ← Bool.decide_and, decide_eq_decide]
  omega

theorem Keys.at_at {t now : ℤ} (hle : t ≤ now) (keys : Keys) :
    (keys.at t).at now = keys.at now := by
  funext key
  simp only [Keys.at]
  rw [Option.filter_filter]
  congr 1
  funext h
  cases h.expireAt with
  | none => rfl
  | some x =>
    have hq : (t : ℚ) ≤ now := by exact_mod_cast hle
    simp only [Option.all_some, ← Bool.decide_and, decide_eq_decide]
    exact ⟨fun h => h.2, fun h => ⟨lt_of_le_of_lt hq h, h⟩⟩

theorem Agree.later {buckets : Buckets} {keys : Keys} {t now : ℤ}
    (h : Agree buckets keys t) (hle : t ≤ now) : Agree buckets keys now := by
  intro key
  rw [← Keys.at_at hle]
  show ((keys.at t key).filter _) = _
  rw [h key, map_toHash_filter, liveAt, liveAt, filter_live_filter hle]

theorem Agree.stored {buckets : Buckets} {keys : Keys} {now : ℤ}
    (h : Agree buckets keys now) (key : String) :
    Memory.stored (Memory.dropExpired now buckets) key = Redis.stored (keys.at now) key := by
  rw [Memory.stored, Memory.dropExpired, lookup_keep, Redis.stored, h key]
  show (liveAt buckets now key).map _ = _
  cases liveAt buckets now key with
  | none => rfl
  | some e => rfl

/-! ## What `entryFor` finds and leaves -/

section EntryFor

variable {buckets : Buckets} {K : Finset String}

theorem dropExpired_small (now : ℤ) (hK : K.card < maxMemorySources)
    (hsub : ∀ a ∈ buckets, a ∈ K) :
    size (Memory.dropExpired now buckets) < maxMemorySources :=
  lt_of_le_of_lt (size_le_card fun a ha => hsub a (mem_of_mem_keep ha)) hK

theorem entryFor_spec (c : AcceptedClock) (first : Buckets → String) (key : String) (now : ℤ)
    (hK : K.card < maxMemorySources) (hsub : ∀ a ∈ buckets, a ∈ K) :
    (Memory.entryFor c.toClockConfig first buckets key now).1.bucket =
        startOf c.toClockConfig now (liveAt buckets now key) ∧
      (∀ a ∈ (Memory.entryFor c.toClockConfig first buckets key now).2, a = key ∨ a ∈ buckets) ∧
      ∀ a, a ≠ key → liveAt (Memory.entryFor c.toClockConfig first buckets key now).2 now a =
        liveAt buckets now a := by
  have hfound : (buckets.lookup key).filter (Memory.live now) = liveAt buckets now key := rfl
  rw [Memory.entryFor]
  dsimp only
  rw [hfound]
  cases he : liveAt buckets now key with
  | some e =>
    obtain ⟨hlook, hlive⟩ := Option.filter_eq_some_iff.mp he
    have hany : (buckets.lookup key).any (!Memory.live now ·) = false := by
      rw [hlook, Option.any_some, hlive, Bool.not_true]
    simp only [hany]
    exact ⟨rfl, fun a ha => .inr ha, fun a _ => rfl⟩
  | none =>
    dsimp only
    -- whether or not the expired entry was there to delete, what is left
    -- differs from `buckets` at `key` only
    generalize hb : (if (buckets.lookup key).any (!Memory.live now ·) = true
      then buckets.erase key else buckets) = left
    have hmem : ∀ a ∈ left, a ∈ buckets := by
      intro a ha
      rw [← hb] at ha
      split at ha
      · exact (AList.mem_erase.mp ha).2
      · exact ha
    have hlook : ∀ a, a ≠ key → left.lookup a = buckets.lookup a := by
      intro a ha
      rw [← hb]
      split
      · exact AList.lookup_erase_ne ha
      · rfl
    have hsize := dropExpired_small now hK fun a ha => hsub a (hmem a ha)
    rw [if_neg (not_le.mpr hsize)]
    refine ⟨rfl, fun a ha => ?_, fun a ha => ?_⟩
    · rcases (AList.mem_insert _).mp ha with rfl | ha
      · exact .inl rfl
      · exact .inr (hmem a (mem_of_mem_keep ha))
    · rw [liveAt, AList.lookup_insert_ne ha, Memory.dropExpired, lookup_keep,
        filter_live_filter (le_refl now), hlook a ha, liveAt]

end EntryFor

/-! ## One call, both sides -/

/-- The relation of the simulation: the key spaces agree at some instant
the calls to come do not precede, and all keys, past and to come, are in a
set smaller than the map's cap. -/
structure Paired (K : Finset String) (buckets : Buckets) (keys : Keys)
    (rest : List Request) : Prop where
  agree : ∃ t, Agree buckets keys t ∧ ∀ r ∈ rest, t ≤ r.now
  sorted : rest.Pairwise fun r r' => r.now ≤ r'.now
  mapped : ∀ a ∈ buckets, a ∈ K
  named : ∀ r ∈ rest, r.key ∈ K

variable {buckets : Buckets} {keys : Keys} {r : Request} {rest : List Request}
  {K : Finset String}

theorem memory_allow_eq (c : AcceptedClock) (first : Buckets → String)
    (hctx : r.ctxErr = none) (hK : K.card < maxMemorySources) (hsub : ∀ a ∈ buckets, a ∈ K) :
    let e := liveAt buckets r.now r.key
    let wait := waitDuration (outOf c.toClockConfig r.now e).waitMicro
    Memory.allow c.toClockConfig first buckets r =
      ((Memory.entryFor c.toClockConfig first buckets r.key r.now).2.insert r.key
          (leftBy c.toClockConfig r.now e),
        .ok (allowedFromWait wait c.maxDelay, wait)) := by
  have hstart := (entryFor_spec c first r.key r.now hK hsub).1
  simp only [Memory.allow, hctx, hstart]
  rfl

theorem redis_allow_eq (hctx : r.ctxErr = none) (h : Agree buckets keys r.now) :
    let e := liveAt buckets r.now r.key
    let wait := waitDuration (outOf c.toClockConfig r.now e).waitMicro
    Redis.allow c.toClockConfig keys r =
      (update (keys.at r.now) r.key (some (leftBy c.toClockConfig r.now e).toHash),
        .ok (allowedFromWait wait c.maxDelay, wait)) := by
  simp only [Redis.allow, hctx]
  rw [allowScript_eq (h r.key)]
  rfl

theorem agree_of_update {left : Buckets} {e : MemEntry} {key : String} {now : ℤ}
    (h : Agree buckets keys now)
    (hleft : ∀ a, a ≠ key → liveAt left now a = liveAt buckets now a) :
    Agree (left.insert key e) (update (keys.at now) key (some e.toHash)) now := by
  intro a
  by_cases ha : a = key
  · subst ha
    rw [Keys.at, update_self, liveAt, AList.lookup_insert]
    exact map_toHash_filter (some e) now
  · have hkeys : Keys.at (update (keys.at now) key (some e.toHash)) now a =
        (keys.at now).at now a := by
      rw [Keys.at, update_of_ne ha]
      rfl
    rw [hkeys, Keys.at_at (le_refl now), h a, ← hleft a ha, liveAt, liveAt,
      AList.lookup_insert_ne ha]

theorem paired_simulates (hK : K.card < maxMemorySources) :
    Simulates (Memory.observe c.toClockConfig first) (Redis.observe c.toClockConfig)
      (Paired K) := by
  intro buckets keys r rest hR
  obtain ⟨t, hagree, hfrom⟩ := hR.agree
  have hnow := hagree.later (hfrom r (List.mem_cons_self ..))
  obtain ⟨hnext, hsorted⟩ := List.pairwise_cons.mp hR.sorted
  have hnamed : ∀ r' ∈ rest, r'.key ∈ K := fun r' h => hR.named r' (List.mem_cons_of_mem _ h)
  cases hctx : r.ctxErr with
  | some err =>
    have hm : Memory.allow c.toClockConfig first buckets r = (buckets, .error err) := by
      simp only [Memory.allow, hctx]
    have hr : Redis.allow c.toClockConfig keys r = (keys, .error err) := by
      simp only [Redis.allow, hctx]
    simp only [Memory.observe, Redis.observe, hm, hr]
    exact ⟨by rw [hnow.stored], ⟨r.now, hnow, hnext⟩, hsorted, hR.mapped, hnamed⟩
  | none =>
    have hm := memory_allow_eq c first hctx hK hR.mapped
    have hr := redis_allow_eq (c := c) hctx hnow
    obtain ⟨-, hmem, hleft⟩ :=
      entryFor_spec c first r.key r.now hK hR.mapped
    have hafter := agree_of_update (e := leftBy c.toClockConfig r.now
      (liveAt buckets r.now r.key)) hnow hleft
    simp only [Memory.observe, Redis.observe, hm, hr]
    refine ⟨by rw [hafter.stored], ⟨r.now, hafter, hnext⟩, hsorted, ?_, hnamed⟩
    intro a ha
    rcases (AList.mem_insert _).mp ha with rfl | ha
    · exact hR.named r (List.mem_cons_self ..)
    · rcases hmem a ha with rfl | ha
      · exact hR.named r (List.mem_cons_self ..)
      · exact hR.mapped a ha

/-- Call by call the in-process store and the Redis store give the same
answer and hold the same bucket. -/
theorem stores_agree (c : AcceptedClock) (first : Buckets → String) (calls : List Request)
    (hkeys : (calls.map Request.key).toFinset.card < maxMemorySources)
    (hclock : calls.Pairwise fun r r' => r.now ≤ r'.now) :
    outputs (Memory.observe c.toClockConfig first) ∅ calls =
      outputs (Redis.observe c.toClockConfig) (fun _ => none) calls := by
  apply (paired_simulates hkeys).outputs_eq
  refine ⟨⟨(calls.head?.map Request.now).getD 0, fun key => rfl, ?_⟩, hclock, ?_, ?_⟩
  · intro r hr
    cases calls with
    | nil => cases hr
    | cons r₀ rest =>
      rcases List.mem_cons.mp hr with rfl | hr
      · exact le_refl _
      · exact (List.pairwise_cons.mp hclock).1 r hr
  · intro a ha
    exact absurd ha (AList.notMem_empty a)
  · intro r hr
    exact List.mem_toFinset.mpr (List.mem_map_of_mem hr)

/-- One request a second, no queueing, one second of memory. -/
def briefClock : AcceptedClock := ⟨⟨1, 1, 0, 1000000000⟩, by decide +kernel⟩

/-- Admitted, refused and refunded, another key, a cancelled call, and the
first key again at the instant its bucket expires. -/
def briefCalls : List Request :=
  [⟨"a", 0, none⟩, ⟨"a", 500000000, none⟩, ⟨"b", 600000000, none⟩,
    ⟨"b", 700000000, some "context canceled"⟩, ⟨"a", 1500000000, none⟩]

theorem stores_agree_brief :
    (outputs (Redis.observe briefClock.toClockConfig) (fun _ => none) briefCalls).map
        (fun x => (x.1.toOption, x.2)) =
      [(some (true, 0), some (0, 0)), (some (false, 500000000), some (1 / 2, 500000)),
        (some (true, 0), some (0, 600000)), (none, some (0, 600000)),
        (some (true, 0), some (0, 1500000))] ∧
    outputs (Memory.observe briefClock.toClockConfig fun _ => "a") ∅ briefCalls =
      outputs (Redis.observe briefClock.toClockConfig) (fun _ => none) briefCalls :=
  ⟨by decide +kernel,
    stores_agree briefClock _ briefCalls (by decide +kernel) (by decide +kernel)⟩

end MiddlewareUtils.TokenBucket
